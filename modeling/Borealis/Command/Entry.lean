-- Running a script, or the main script of the package around it.
import Borealis.Console
import Borealis.Project

namespace Borealis.Command

/-- Runs the preludes and then a script, and prints its value unless it is null. -/
def runIn (s : Session) (path : Text) (c : Console) : Ending :=
  match s.loadPreludes c.host with
  | (.error e, _) => (1, c.complain e.message)
  | (.ok (), s) =>
    match s.runFile c.host path with
    | (.error e, _) => (1, c.complain e.message)
    | (.ok .null, _) => (0, c)
    | (.ok v, _) => (0, c.say v.inspect)

/-- The package around a script. A script may be without one, but then it has to be named. -/
def packageFor (h : Host) (script : Option Text) : Except NoManifest (Option Manifest) :=
  match Manifest.loadFor h (script.getD "."), script with
  | .ok m, _ => .ok (some m)
  | .error .notFound, some _ => .ok none
  | .error e, _ => .error e

/-- Runs a script, or the main script of the package if none is named. -/
def runScript (script : Option Text) (c : Console) : Ending :=
  match packageFor c.host script with
  | .error e => (1, c.complain ("failed to load manifest: " ++ e.message))
  | .ok m =>
    match Project.loadLock? c.host m with
    | .error e => (1, c.complain e.message)
    | .ok lock =>
      let s := Session.new m lock
      match script.elim s.entryPath .ok with
      | .error e => (1, c.complain e.message)
      | .ok path => runIn s path c

/-- Runs what the arguments name: at most one script. -/
def entry (arguments : List Text) (c : Console) : Ending :=
  match arguments with
  | [] => runScript none c
  | [script] => runScript (some script) c
  | _ :: more => (1, c.complain ("unexpected arguments: " ++ Text.join " " more))

end Borealis.Command
