-- What follows an error or a returned value during an evaluation. The tasks
-- around it end, innermost first, and nothing else happens: an error ends all
-- of them, and a returned value those up to the first call or program, which
-- ends with the value inside it.
import Borealis.Proofs.Traces

namespace Borealis

/-! ## Unwinding -/

/-- The value `v` was just given inside of the tasks `around`. Then `after` follows, and the whole
evaluation ends with `outcome`. What follows once a returned value was caught is left open. -/
inductive Unwinds (outcome : Except Failure Value) : Value → List Task → List Event → Prop
  | out {v : Value} (h : outcome = .ok v) : Unwinds outcome v [] []
  | passes {v : Value} {t : Task} {around : List Task} {after : List Event}
      (ht : v.isError = true ∨ t.catches = false) (h : Unwinds outcome v around after) :
      Unwinds outcome v (t :: around) (.ends t (.ok v) :: after)
  | caught {w : Value} {t : Task} {around : List Task} {after : List Event}
      (ht : t.catches = true) : Unwinds outcome (.ret w) (t :: around) (.ends t (.ok w) :: after)

namespace Unwinds

variable {outcome : Except Failure Value} {v : Value} {around : List Task} {after : List Event}

/-- Where evaluation goes on afterwards, the value was caught. -/
theorem append {u : Value} (h : Unwinds (.ok u) v around after) (hu : u.isAbrupt = false)
    (hv : v.isAbrupt = true) (more : List Event) : Unwinds outcome v around (after ++ more) := by
  induction h with
  | out h =>
    injection h with h
    subst h
    exact absurd hv (by simp [hu])
  | passes ht _ ih => exact .passes ht (ih hv)
  | caught ht => exact .caught ht

theorem within {r : Result} (h : Unwinds r.1 v around after) (hv : v.isAbrupt = true)
    (task : Task) :
    Unwinds (task.ending r).1 v (around ++ [task])
      (after ++ [.ends task (task.ending r).1]) := by
  induction h with
  | @out v h =>
    obtain ⟨_, s⟩ := r
    subst h
    cases v with
    | error fault =>
      have he : (task.ending (.ok (.error fault), s)).1 = .ok (.error fault) := by
        unfold Task.ending
        split <;> rfl
      rw [he]
      exact .passes (Or.inl rfl) (.out rfl)
    | ret w =>
      unfold Task.ending
      split
      · rename_i ht
        exact .caught ht
      · rename_i ht
        exact .passes (Or.inr (by simpa using ht)) (.out rfl)
    | _ => exact absurd hv (by simp [Value.isAbrupt])
  | passes ht _ ih => exact .passes ht (ih hv)
  | caught ht => exact .caught ht

/-- An error ends everything around it. -/
theorem error {fault : Fault} (h : Unwinds outcome (.error fault) around after) :
    after = around.map (fun t => .ends t (.ok (.error fault))) ∧ outcome = .ok (.error fault) := by
  generalize hv : Value.error fault = v at h
  induction h with
  | out h => exact ⟨rfl, h⟩
  | passes _ _ ih =>
    obtain ⟨rfl, ho⟩ := ih hv
    exact ⟨rfl, ho⟩
  | caught _ => cases hv

theorem uncaught {w : Value} (h : Unwinds outcome (.ret w) around after)
    (hc : ∀ t ∈ around, t.catches = false) :
    after = around.map (fun t => .ends t (.ok (.ret w))) ∧ outcome = .ok (.ret w) := by
  generalize hv : Value.ret w = v at h
  induction h with
  | out h => exact ⟨rfl, h⟩
  | passes _ _ ih =>
    rw [List.forall_mem_cons] at hc
    obtain ⟨rfl, ho⟩ := ih hc.2 hv
    exact ⟨rfl, ho⟩
  | caught ht => exact absurd ht (by simp [hc])

theorem catcher {w : Value} (h : Unwinds outcome (.ret w) around after) {inner outer : List Task}
    {t : Task} (ha : around = inner ++ t :: outer) (hi : ∀ u ∈ inner, u.catches = false)
    (ht : t.catches = true) :
    ∃ rest, after = inner.map (fun u => .ends u (.ok (.ret w))) ++ .ends t (.ok w) :: rest := by
  generalize hv : Value.ret w = v at h
  induction h generalizing inner with
  | out _ => simp at ha
  | @passes v u around after hu _ ih =>
    subst hv
    have hu : u.catches = false := hu.resolve_left (by simp [Value.isError])
    cases inner with
    | nil =>
      injection ha with ha
      exact absurd ht (by simp [← ha, hu])
    | cons x inner =>
      injection ha with hx ha
      subst hx
      rw [List.forall_mem_cons] at hi
      obtain ⟨rest, rfl⟩ := ih ha hi.2 rfl
      exact ⟨rest, rfl⟩
  | @caught w' u around after hu =>
    injection hv with hv
    subst hv
    cases inner with
    | nil =>
      injection ha with ha
      subst ha
      exact ⟨after, rfl⟩
    | cons x inner =>
      injection ha with hx
      subst hx
      exact absurd hu (by simp [hi])

end Unwinds

/-! ## Every trace unwinds -/

/-- Whatever stops evaluation in the trace unwinds the tasks around it. -/
def Trace.Unwinding (t : Trace) : Prop :=
  ∀ before task v after, t.events = before ++ .ends task (.ok v) :: after → v.isAbrupt = true →
    ∃ around, (∀ tasks, underWay before tasks = task :: (around ++ tasks)) ∧
      Unwinds t.result.1 v around after

theorem append_eq_append_cons {a b before after : List Event} {e : Event}
    (h : a ++ b = before ++ e :: after) :
    (∃ c, a = before ++ e :: c ∧ after = c ++ b) ∨ ∃ c, before = a ++ c ∧ b = c ++ e :: after := by
  rcases List.append_eq_append_iff.mp h with ⟨c, hb, hc⟩ | ⟨c, ha, hc⟩
  · exact Or.inr ⟨c, hb, hc⟩
  · rcases List.cons_eq_append_iff.mp hc with ⟨rfl, hb⟩ | ⟨c, rfl, hb⟩
    · exact Or.inr ⟨[], by simpa using ha.symm, hb⟩
    · exact Or.inl ⟨c, ha, hb⟩

namespace Trace

variable {t : Trace}

theorem Unwinding.andThen {next : Value → Store → Trace}
    (hb : ∀ tasks, underWay t.events tasks = tasks) (ht : t.Unwinding)
    (hn : ∀ v s, t.result = (.ok v, s) → (next v s).Unwinding) :
    (t.andThen next).Unwinding := by
  rcases andThen_cases t next with h | ⟨u, s, hr, hu, h⟩
  · rw [h]
    exact ht
  · rw [h]
    intro before task v after he hv
    rcases append_eq_append_cons he with ⟨c, hc, rfl⟩ | ⟨c, rfl, hc⟩
    · -- The first part went on, so whatever stopped evaluation in it was caught there.
      obtain ⟨around, hw, hx⟩ := ht before task v c hc hv
      rw [hr] at hx
      exact ⟨around, hw, hx.append hu hv _⟩
    · obtain ⟨around, hw, hx⟩ := hn u s hr c task v after hc hv
      refine ⟨around, fun tasks => ?_, hx⟩
      rw [underWay_append, hb, hw]

theorem Unwinding.during (hb : ∀ tasks, underWay t.events tasks = tasks) (ht : t.Unwinding)
    (task : Task) : (t.during task).Unwinding := by
  intro before task' v after he hv
  cases before with
  | nil => exact absurd he (by simp [Trace.during])
  | cons e before =>
    injection he with he hs
    subst he
    rcases append_eq_append_cons hs with ⟨c, hc, rfl⟩ | ⟨c, rfl, hc⟩
    · -- The event is one inside of the task.
      obtain ⟨around, hw, hx⟩ := ht before task' v c hc hv
      refine ⟨around ++ [task], fun tasks => ?_, hx.within hv task⟩
      simpa [underWay] using hw (task :: tasks)
    · -- The event is the end of the task itself.
      cases c with
      | cons x c => exact absurd hc (by simp)
      | nil =>
        injection hc with hc ha
        injection hc with hc ho
        subst hc ha
        refine ⟨[], fun tasks => ?_, .out ho⟩
        simp [underWay, hb]

theorem Unwinding.behind_entry (ht : t.Unwinding) (home scope : ScopeId)
    (bindings : List (Text × Value)) : (t.behind (entry home scope bindings)).Unwinding := by
  intro before task v after he hv
  rcases append_eq_append_cons he with ⟨c, hc, -⟩ | ⟨c, rfl, hc⟩
  · have hm : Event.ends task (.ok v) ∈ entry home scope bindings := by simp [hc]
    exact absurd hm (by simp [entry])
  · obtain ⟨around, hw, hx⟩ := ht c task v after hc hv
    refine ⟨around, fun tasks => ?_, hx⟩
    rw [underWay_append, underWay_entry, hw]

theorem unwinding_of_no_end (h : ∀ task outcome, Event.ends task outcome ∉ t.events) :
    t.Unwinding := by
  intro before task v after he
  exact absurd (by simp [he]) (h task (.ok v))

theorem Formed.unwinding {limit room : Nat} {scope : ScopeId} {s : Store}
    (h : Formed limit room scope s t) : t.Unwinding := by
  induction h with
  | still r _ => exact unwinding_of_no_end (by simp [Trace.still])
  | makes f => exact unwinding_of_no_end (by simp)
  | binds name v => exact unwinding_of_no_end (by simp)
  | andThen first _ ih ihn => exact ih.andThen first.balanced ihn
  | node n inside ih => exact ih.during inside.balanced _
  | refused f args =>
    have hs : (Trace.still (.error (.tooManyCalls limit)) s).Unwinding :=
      unwinding_of_no_end (by simp [Trace.still])
    exact hs.during (fun tasks => rfl) _
  | called f args home bindings inside ih =>
    exact (ih.behind_entry _ _ _).during (underWay_behind_entry inside.balanced _ _ _) _

end Trace

theorem replay_ends (tasks : List Task) (outcome : Except Failure Value) (s : Store) :
    replay (tasks.map fun t => .ends t outcome) s = s := by
  induction tasks with
  | nil => rfl
  | cons t tasks ih => exact ih

/-- During the evaluation of a node, let a task end with an error or with a returned value. An
error is what all tasks around it end with, one after the other, and then the evaluation is over.
A returned value is what the tasks around it end with up to the first call or program, which ends
with the value inside it. If there is none, the evaluation is over. -/
theorem abrupt_values_unwind (limit : Nat) (n : Node) (scope : ScopeId) (s : Store)
    {before after : List Event} {task : Task} {v : Value} (hv : v.isAbrupt = true)
    (h : (traceNode limit n scope s).events = before ++ .ends task (.ok v) :: after) :
    (traceNode limit n scope s).result = evalNode limit n scope s ∧
      replay (traceNode limit n scope s).events s = (evalNode limit n scope s).2 ∧
      ∃ around, underWay before [] = task :: around ∧
        (∀ fault, v = .error fault →
          after = around.map (fun t => .ends t (.ok v)) ∧
            evalNode limit n scope s = (.ok v, replay before s)) ∧
        ∀ w, v = .ret w →
          (∀ inner t outer, around = inner ++ t :: outer → (∀ u ∈ inner, u.catches = false) →
            t.catches = true →
            ∃ rest, after = inner.map (fun u => .ends u (.ok v)) ++ .ends t (.ok w) :: rest) ∧
          ((∀ t ∈ around, t.catches = false) →
            after = around.map (fun t => .ends t (.ok v)) ∧
              evalNode limit n scope s = (.ok v, replay before s)) := by
  have hf := traceNode_formed limit n scope s
  have hr := traceNode_result limit n scope s
  have hs : replay (traceNode limit n scope s).events s = (evalNode limit n scope s).2 := by
    rw [← hf.store_eq, hr]
  obtain ⟨around, hw, hx⟩ := hf.unwinding before task v after h hv
  -- Where only ends follow, the store stays as it is.
  have hover : after = around.map (fun t => .ends t (.ok v)) →
      (traceNode limit n scope s).result.1 = .ok v →
      evalNode limit n scope s = (.ok v, replay before s) := by
    intro ha ho
    rw [h, replay_append, ha] at hs
    rw [hr] at ho
    exact Prod.ext ho (hs.symm.trans (replay_ends around (.ok v) _))
  refine ⟨hr, hs, around, by simpa using hw [], ?_, ?_⟩
  · rintro fault rfl
    obtain ⟨ha, ho⟩ := hx.error
    exact ⟨ha, hover ha ho⟩
  · rintro w rfl
    refine ⟨fun inner t outer hi hc ht => hx.catcher hi hc ht, fun hc => ?_⟩
    obtain ⟨ha, ho⟩ := hx.uncaught hc
    exact ⟨ha, hover ha ho⟩

/-- A function that returns 5 from inside of a sum. -/
def sumCutShort : Declaration :=
  ⟨[], some [.expr (.binary "+" (.int 1) (.ifThen (.bool true) [.ret (.int 5)]))]⟩

/-- Calls the function, adds a boolean to what it gives, and negates that. -/
def negatedMix : Expr :=
  .unary "!" (.binary "+" (.call sumCutShort.toExpr []) (.bool true))

/-- The events of `negatedMix` in a new store. -/
def negatedMixEvents : List Event :=
  (traceNode 1 (.expr negatedMix) 0 (Store.empty.newScope none).2).events

/-- The returned value ends the call, and the sum goes wrong later and ends everything. -/
theorem negatedMix_unwinds :
    (∃ (inner : List Task) (rest : List Event), negatedMixEvents.drop 21
        = inner.map (fun t => .ends t (.ok (.ret (.int 5)))) ++
          .ends (.call sumCutShort []) (.ok (.int 5)) :: rest) ∧
      ∃ (v : Value) (around : List Task), v.isError = true ∧
        negatedMixEvents.drop 31 = around.map (fun t => .ends t (.ok v)) ∧
        (evalNode 1 (.expr negatedMix) 0 (Store.empty.newScope none).2).1 = .ok v := by
  constructor
  · have h : negatedMixEvents = negatedMixEvents.take 20 ++
        .ends (.node (.stmt (.ret (.int 5))) 1) (.ok (.ret (.int 5))) :: negatedMixEvents.drop 21 :=
      rfl
    obtain ⟨-, -, around, ha, -, hret⟩ := abrupt_values_unwind 1 _ 0 _ rfl h
    obtain rfl : (underWay (negatedMixEvents.take 20) []).tail = around := by rw [ha]; rfl
    obtain ⟨rest, hrest⟩ := (hret (.int 5) rfl).1
      ((underWay (negatedMixEvents.take 20) []).tail.take 5) (.call sumCutShort []) _ rfl
      (by decide) rfl
    exact ⟨_, rest, hrest⟩
  · have h : negatedMixEvents = negatedMixEvents.take 30 ++
        .ends (.node (.expr (.binary "+" (.call sumCutShort.toExpr []) (.bool true))) 0)
          (.ok (.error (.mismatch .integer "+" .boolean))) :: negatedMixEvents.drop 31 := rfl
    obtain ⟨-, -, around, -, herr, -⟩ := abrupt_values_unwind 1 _ 0 _ rfl h
    obtain ⟨hafter, hend⟩ := herr _ rfl
    exact ⟨_, around, rfl, hafter, congrArg Prod.fst hend⟩

end Borealis
