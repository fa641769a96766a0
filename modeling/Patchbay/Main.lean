import Patchbay.Monitor

/-!
# The command line of the monitor
-/

namespace Patchbay.Monitor

def Outcome.lines (o : Outcome) : List String :=
  o.outbound.map (fun r => s!"outbound sequence={r.sequence} event={r.effect.toJson.compact}") ++
    [s!"inbound queue drained handled={o.handled}"] ++
    o.entries.map fun e =>
      s!"mapping entry id={e.id} rule={e.rule.text} state={e.state.name} peers={e.links.agents.length}"

def readGiven : Option String → IO (Option String)
  | some path => return some (← IO.FS.readFile path)
  | none => return none

def start (settings : Settings) : IO UInt32 := do
  let definition ← readGiven settings.definition
  let mapping ← readGiven settings.mapping
  match run settings definition mapping with
  | .ok outcome =>
    outcome.lines.forM IO.println
    return 0
  | .error fault =>
    IO.eprintln s!"Error: {fault.message}"
    return 1

end Patchbay.Monitor

def main (args : List String) : IO UInt32 := do
  match Patchbay.Monitor.Settings.ofArgs? args with
  | none =>
    IO.eprintln "usage: [--name NAME] [--definition FILE] [--mapping FILE] [--peers N] [--samples N]"
    return 2
  | some settings =>
    try
      Patchbay.Monitor.start settings
    catch error =>
      IO.eprintln s!"Error: {error}"
      return 1
