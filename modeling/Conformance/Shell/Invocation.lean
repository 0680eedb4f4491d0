import Conformance.Shell.Session
/-!
# Invocations

What the words after the name of a shell ask for: flags, where the script comes
from, what it is called and with which parameters.
-/
namespace Conformance.Shell

inductive Source
  | text (script : Octets)
  | file (name : Octets)
  | input
  deriving DecidableEq

structure Invocation where
  flags : List Char
  source : Source
  name : Octets
  parameters : List Octets
  deriving DecidableEq

namespace Invocation

/-- The flags of an invocation, whether its script is an operand, and the operands. -/
structure Options where
  flags : List Char
  isText : Bool
  operands : List Octets

def Options.set (o : Options) (isOn : Bool) (flag : Char) : Except Octets Options :=
  if flag = 'c' ∧ isOn then .ok { o with isText := true }
  else if (flagNames.lookup flag).isNone then .error (Octets.ofString "Illegal option -" ++ [flag])
  else
    let others := o.flags.filter (· ≠ flag)
    .ok { o with flags := if isOn then flag :: others else others }

def Options.setNamed (o : Options) (isOn : Bool) (name : Octets) : Except Octets Options :=
  match flagNames.find? fun (_, other) => other.toList == name with
  | some (flag, _) => o.set isOn flag
  | none => .error (Octets.ofString "Illegal option -o " ++ name)

def options (o : Options) : List Octets → Except Octets Options
  | [] => .ok { o with operands := [] }
  | ['-'] :: rest => .ok { o with operands := rest }
  | ['-', '-'] :: rest => .ok { o with operands := rest }
  | (c :: letters) :: rest =>
    if c = '-' ∨ c = '+' then do
      let o ← (letters.filter (· ≠ 'o')).foldlM (fun o letter => o.set (c == '-') letter) o
      match letters.contains 'o', rest with
      | true, name :: rest => options (← o.setNamed (c == '-') name) rest
      | _, rest => options o rest
    else .ok { o with operands := (c :: letters) :: rest }
  | rest => .ok { o with operands := rest }

/-- Reads the words after a name, or says what is wrong with them. -/
def ofWords (name : Octets) (words : List Octets) : Except Octets Invocation := do
  let o ← options ⟨[], false, []⟩ words
  match o.isText, o.flags.contains 's', o.operands with
  | true, _, [] => .error (Octets.ofString "-c requires an argument")
  | true, _, [script] => .ok ⟨o.flags, .text script, name, []⟩
  | true, _, script :: name :: parameters => .ok ⟨o.flags, .text script, name, parameters⟩
  | false, true, parameters => .ok ⟨o.flags, .input, name, parameters⟩
  | false, false, [] => .ok ⟨'s' :: o.flags, .input, name, []⟩
  | false, false, file :: parameters => .ok ⟨o.flags, .file file, file, parameters⟩

end Invocation
end Conformance.Shell
