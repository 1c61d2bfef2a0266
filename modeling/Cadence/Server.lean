import Cadence.Options
import Cadence.Text.Numeral

/-!
# Arguments of the server

How the tools are served: over standard input and output, or over the network.
-/

namespace Cadence

open Options

/-- The way to the tools. -/
inductive Transport where
  | stdio
  | http (host : String) (port : Int)
  deriving Repr, DecidableEq

/-- How the server runs. -/
structure Service where
  transport : Transport
  debug : Bool
  deriving Repr, DecidableEq

namespace Service

def usage : Usage where
  flags := [
    { name := "--transport", takesValue := true, accepts := fun v => v == "http" || v == "stdio" },
    { name := "--host", takesValue := true },
    { name := "--port", takesValue := true, accepts := fun v => (Text.readInt v.toList).isSome },
    { name := "--debug" }]

/-- Reads the arguments. Host and port matter over the network only. -/
def parse (args : List String) : Except Stop Service := do
  let p ← usage.parse args
  let p ← p.settle
  let host := (p.value? "--host").getD "127.0.0.1"
  let port := ((p.value? "--port").bind fun v => Text.readInt v.toList).getD 8000
  let transport := if p.value? "--transport" = some "http" then Transport.http host port else .stdio
  return ⟨transport, p.has "--debug"⟩

end Service

end Cadence
