-- A package with its lock, and the directory for caches and history.
import Borealis.Session

namespace Borealis

/-- Why there is no lock for a manifest. -/
inductive NoLock where
  | missing (name : Text)
  | unreadable (path : Text) (e : LockfileError)
  | otherRoot (root name : Text)

/-- The text of the error. -/
def NoLock.message : NoLock → Text
  | missing name =>
    "package.lock missing for " ++ name.quoted ++ "; run \x60aurora deps install\x60"
  | unreadable path e => "failed to read lockfile " ++ path ++ ": " ++ e.message
  | otherRoot root name =>
    "lockfile root " ++ root.quoted ++ " does not match manifest name " ++ name.quoted

namespace Project

/-- Loads the lock of a manifest. It may be missing if there are no dependencies. -/
def loadLock (h : Host) (m : Manifest) : Except NoLock (Option Lockfile) :=
  let path := Lockfile.pathFor m
  match Lockfile.load h path with
  | .error e =>
    if !e.isNotFound then .error (.unreadable path e)
    else if m.dependencies.isEmpty then .ok none
    else .error (.missing m.name)
  | .ok l => if l.root = m.name then .ok (some l) else .error (.otherRoot l.root m.name)

/-- Loads the lock of a manifest, if there is a manifest. -/
def loadLock? (h : Host) : Option Manifest → Except NoLock (Option Lockfile)
  | none => .ok none
  | some m => loadLock h m

/-- The directory for caches and history: the one that is set, or one in the home of the user. -/
def cacheDir (h : Host) : Text :=
  if h.cacheHome.trim.isEmpty then Path.join [h.userHome, ".aurora"]
  else h.absolute h.cacheHome.trim

/-- Why a session for a read loop could not start. -/
inductive NoSession where
  | lock (e : NoLock)
  | preludes (e : SessionError)

/-- The text of the error. -/
def NoSession.message : NoSession → Text
  | lock e => e.message
  | preludes e => e.message

/-- Starts a session for a read loop, with all preludes unless they are to be skipped. -/
def startSession (h : Host) (manifest : Option Manifest) (skipPrelude : Bool) :
    Except NoSession Session :=
  if manifest.isNone || skipPrelude then .ok (Session.new manifest none)
  else match loadLock? h manifest with
    | .error e => .error (.lock e)
    | .ok lock =>
      match (Session.new manifest lock).loadPreludes h with
      | (.error e, _) => .error (.preludes e)
      | (.ok (), s) => .ok s

/-- The history file of a read loop, and the machine with its directory. -/
def historyPath (h : Host) (manifest : Option Manifest) : Option Text × Host :=
  match manifest.bind fun m => if m.loop.history.isEmpty then none else some m with
  | some m => (some (m.resolve m.loop.history), h)
  | none =>
    match h.files.makeDirsAt h.cwd (cacheDir h) with
    | .error _ => (none, h)
    | .ok files => (some (Path.join [cacheDir h, "history"]), { h with files := files })

end Project

end Borealis
