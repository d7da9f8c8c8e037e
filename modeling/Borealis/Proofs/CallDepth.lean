-- The limit on active calls. An evaluation runs into it exactly if more calls
-- than the limit are active at some time; otherwise it is the same under every
-- higher limit.
import Borealis.Proofs.Traces

namespace Borealis

/-! ## Calls that are active at once -/

def activeCalls (tasks : List Task) : Nat := tasks.countP Task.isCall

/-- The most calls that are active at once during events. `tasks` are under way before them. -/
def mostCalls : List Event → (tasks : List Task) → Nat
  | [], tasks => activeCalls tasks
  | e :: rest, tasks => max (activeCalls tasks) (mostCalls rest (underWay [e] tasks))

theorem activeCalls_node (n : Node) (scope : ScopeId) (tasks : List Task) :
    activeCalls (.node n scope :: tasks) = activeCalls tasks :=
  List.countP_cons_of_neg (by simp [Task.isCall])

theorem activeCalls_call (f : Declaration) (args : List Value) (tasks : List Task) :
    activeCalls (.call f args :: tasks) = activeCalls tasks + 1 := List.countP_cons_of_pos rfl

theorem underWay_cons (e : Event) (rest : List Event) (tasks : List Task) :
    underWay (e :: rest) tasks = underWay rest (underWay [e] tasks) :=
  underWay_append [e] rest tasks

theorem activeCalls_le_mostCalls (events : List Event) (tasks : List Task) :
    activeCalls tasks ≤ mostCalls events tasks := by
  cases events with
  | nil => exact Nat.le_refl _
  | cons e rest => exact Nat.le_max_left _ _

theorem mostCalls_append (a b : List Event) (tasks : List Task) :
    mostCalls (a ++ b) tasks = max (mostCalls a tasks) (mostCalls b (underWay a tasks)) := by
  induction a generalizing tasks with
  | nil =>
    have h := activeCalls_le_mostCalls b tasks
    simp only [List.nil_append, mostCalls, underWay]
    omega
  | cons e a ih =>
    rw [List.cons_append, mostCalls, mostCalls, ih, underWay_cons e a]
    omega

theorem mostCalls_entry (home scope : ScopeId) (bindings : List (Text × Value))
    (tasks : List Task) : mostCalls (entry home scope bindings) tasks = activeCalls tasks := by
  have h : mostCalls (bindings.map fun b => .binds scope b.1 b.2) tasks = activeCalls tasks := by
    induction bindings with
    | nil => rfl
    | cons b bindings ih =>
      simp only [List.map_cons, mostCalls, underWay, ih, Nat.max_self]
  simp only [entry, mostCalls, underWay, h, Nat.max_self]

namespace Trace

theorem tooDeep_ending (task : Task) (r : Result) : (task.ending r).TooDeep ↔ r.TooDeep := by
  unfold Task.ending
  split
  · obtain ⟨_ | v, s⟩ := r <;> simp [Result.unwrapped, Result.TooDeep]
  · exact Iff.rfl

/-- Calls that are active inside of a task are active while it is under way. -/
theorem mostCalls_during {t : Trace} (hb : ∀ tasks, underWay t.events tasks = tasks)
    (task : Task) (tasks : List Task) :
    mostCalls (t.during task).events tasks
      = max (activeCalls tasks) (mostCalls t.events (task :: tasks)) := by
  have h := activeCalls_le_mostCalls t.events (task :: tasks)
  simp only [during, mostCalls, mostCalls_append, underWay, hb, List.tail_cons]
  omega

/-- Calls run out of room exactly if more are active at some time than there is room for. -/
theorem Formed.tooDeep_iff {limit room : Nat} {scope : ScopeId} {s : Store} {t : Trace}
    (h : Formed limit room scope s t) (tasks : List Task) :
    t.result.TooDeep ↔ room + activeCalls tasks < mostCalls t.events tasks := by
  induction h generalizing tasks with
  | still r hr =>
    simp only [Trace.still, mostCalls, hr, false_iff]
    omega
  | makes f =>
    simp only [mostCalls, underWay, Result.TooDeep, reduceCtorEq, exists_false, false_iff]
    omega
  | binds name v =>
    simp only [mostCalls, underWay, Result.TooDeep, reduceCtorEq, exists_false, false_iff]
    omega
  | @andThen room _ _ t next first _ ih ihn =>
    rcases andThen_cases t next with h | ⟨v, s', hr, -, h⟩
    · rw [h]
      exact ih tasks
    · -- The first part went on, so there was room for its calls.
      have hroom : ¬ room + activeCalls tasks < mostCalls t.events tasks := by
        rw [← ih tasks, hr]
        exact Result.not_tooDeep_ok v s'
      rw [h, mostCalls_append, first.balanced, ihn v s' hr tasks]
      omega
  | @node room scope _ t n inside ih =>
    have hcalls := activeCalls_node n scope tasks
    rw [mostCalls_during inside.balanced, during, tooDeep_ending, ih (.node n scope :: tasks)]
    omega
  | refused f args =>
    have hcalls := activeCalls_call f args tasks
    -- The call that is refused is the one too many.
    rw [mostCalls_during (fun _ => rfl), during, tooDeep_ending]
    simp only [Trace.still, mostCalls, hcalls, Result.TooDeep]
    exact ⟨fun _ => by omega, fun _ => ⟨limit, rfl⟩⟩
  | @called room scope s t f args home bindings inside ih =>
    have hcalls := activeCalls_call f args tasks
    have hb := underWay_behind_entry inside.balanced home s.scopes.size bindings
    rw [mostCalls_during hb, during, tooDeep_ending, behind, mostCalls_append, mostCalls_entry,
      underWay_entry, ih (.call f args :: tasks)]
    omega

end Trace

/-! ## Limits -/

/-- An evaluation that stays within a limit is the same under every higher one, so one that runs
into a limit runs into every lower one. It runs into a limit exactly if more calls are active at
once. -/
theorem call_limits_only_cut_off {m m' : Nat} (h : m ≤ m') (n : Node) (scope : ScopeId)
    (s : Store) :
    (¬ (evalNode m n scope s).TooDeep → evalNode m' n scope s = evalNode m n scope s) ∧
      ((evalNode m' n scope s).TooDeep → (evalNode m n scope s).TooDeep) ∧
      (traceNode m n scope s).result = evalNode m n scope s ∧
      ((evalNode m n scope s).TooDeep ↔ m < mostCalls (traceNode m n scope s).events []) := by
  have hr := traceNode_result m n scope s
  have hsame : ¬ (evalNode m n scope s).TooDeep →
      evalNode m' n scope s = evalNode m n scope s := by
    intro hd
    have ha := traceNode_agrees Result.lasts_tooDeep (Or.inr ⟨h, fun s => ⟨m, rfl⟩⟩) n scope s
    rw [hr] at ha
    exact ha.resolve_left hd
  refine ⟨hsame, fun hd => ?_, hr, ?_⟩
  · by_cases hm : (evalNode m n scope s).TooDeep
    · exact hm
    · rwa [hsame hm] at hd
  · rw [← hr]
    exact (traceNode_formed m n scope s).tooDeep_iff []

/-- A function that calls itself until its argument is 0, and a call with 2. -/
def countdown : Node :=
  .program ⟨[.bind (some "f") (.fn ["n"] [.expr (.ifElse (.binary "==" (.ident "n") (.int 0))
      [.expr (.int 0)]
      [.expr (.binary "+" (.int 1) (.call (.ident "f") [.binary "-" (.ident "n") (.int 1)]))])]),
    .expr (.call (.ident "f") [.int 2])]⟩

/-- The countdown needs three calls at once. -/
theorem countdown_cut_off :
    evalNode 5 countdown 0 (Store.empty.newScope none).2
        = evalNode 3 countdown 0 (Store.empty.newScope none).2 ∧
      (evalNode 3 countdown 0 (Store.empty.newScope none).2).1 = .ok (.int 2) ∧
      mostCalls (traceNode 3 countdown 0 (Store.empty.newScope none).2).events [] ≤ 3 ∧
      (evalNode 2 countdown 0 (Store.empty.newScope none).2).TooDeep := by
  have hvalue : (evalNode 3 countdown 0 (Store.empty.newScope none).2).1 = .ok (.int 2) := by
    rfl
  have hfits : ¬ (evalNode 3 countdown 0 (Store.empty.newScope none).2).TooDeep := by
    rintro ⟨limit, hl⟩
    rw [hvalue] at hl
    cases hl
  obtain ⟨hsame, -, -, hcalls⟩ := call_limits_only_cut_off (by decide : 3 ≤ 5) countdown 0
    (Store.empty.newScope none).2
  exact ⟨hsame hfits, hvalue, Nat.le_of_not_lt fun hl => hfits (hcalls.mpr hl), 2, rfl⟩

end Borealis
