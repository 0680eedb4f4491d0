import Conformance.Shell.Programs
/-!
# Redirections

Where descriptors lead to while a command runs. The targets of redirections are
words that are expanded already.
-/
namespace Conformance.Shell
open Conformance Files

namespace Run
variable {m : Type → Type} [Monad m]

/-- What is said of a file that cannot be opened; `absent` stands for all that leads nowhere. -/
def openReason (absent : String) : Refusal → String
  | .missing => absent
  | .notDirectory => absent
  | refusal => refusal.reason

def cannotOpen {α : Type} (name : Octets) (refusal : Refusal) : Run m α :=
  refuse (Octets.ofString "cannot open " ++ name
    ++ Octets.ofString (": " ++ openReason "No such file" refusal))

def cannotCreate {α : Type} (name : Octets) (refusal : Refusal) : Run m α :=
  refuse (Octets.ofString "cannot create " ++ name
    ++ Octets.ofString (": " ++ openReason "Directory nonexistent" refusal))

def badDescriptor {α : Type} (n : Nat) : Run m α :=
  refuse (Octets.ofString s!"{n}: Bad file descriptor")

/-- The channel that another descriptor leads to. -/
def sameAs (descriptor : Nat) : Run m Nat := do
  match ← channelOf? descriptor with
  | some n => return n
  | none => badDescriptor descriptor

def openToRead (name : Octets) : Run m Nat := do
  let path ← pathOf name
  match descriptorOf? path with
  | some descriptor => sameAs descriptor
  | none =>
    match ← look path with
    | .ok .device => addChannel .nothing
    | .ok _ => addChannel (.file path 0 false false)
    | .error refusal => cannotOpen name refusal

/-- Opens a file to write to it, whose content `keeps` decides about. -/
def openToWrite (keeps appends : Bool) (name : Octets) : Run m Nat := do
  let path ← pathOf name
  match descriptorOf? path with
  | some descriptor => sameAs descriptor
  | none =>
    match ← look path with
    | .ok .device => addChannel .nothing
    | .ok (.directory _) => cannotCreate name .isDirectory
    | found =>
      let disk ← read
      let written ← match found, keeps with
        | .ok _, true => pure (.ok ())
        | _, _ => disk.write path []
      match written with
      | .ok _ => addChannel (.file path 0 true appends)
      | .error refusal => cannotCreate name refusal

/-- A descriptor is named by one digit, or by a dash where there is to be none. -/
def checkDescriptor (target : Octets) : Run m Unit := do
  if target ≠ ['-'] ∧ ¬ (target.length = 1 ∧ target.all Char.isDigit) then
    refuse (Octets.ofString "Syntax error: Bad fd number")

/-- Carries out one redirection. Where it is kept for later what a descriptor led to, it leads
nowhere before it is known whether it can lead to where another one does. -/
def redirect (keeps : Bool) (r : Redirect Octets) : Run m Unit := do
  match r.direction with
  | .read => connect r.descriptor (some (← openToRead r.target))
  | .write => connect r.descriptor (some (← openToWrite false false r.target))
  | .append => connect r.descriptor (some (← openToWrite true true r.target))
  | .update => connect r.descriptor (some (← openToWrite true false r.target))
  | .document => connect r.descriptor (some (← addChannel (.ofOctets r.target)))
  | .duplicate =>
    match r.target with
    | ['-'] => connect r.descriptor none
    | target =>
      let source := digitsValue 10 target
      if keeps ∧ source ≠ r.descriptor then connect r.descriptor none
      connect r.descriptor (some (← sameAs source))

/-- Lets descriptors lead where they led before some redirections. -/
def restore (before : Process) (redirects : List (Redirect Octets)) : Run m Unit := do
  for r in redirects do
    connect r.descriptor (before.descriptors.lookup r.descriptor)

/-- Does something with descriptors redirected. Without success of the redirections it is not
done. -/
def redirected {α : Type} (redirects : List (Redirect Octets)) (run : Run m α) :
    Run m (Option α) := do
  let before ← process
  let outcome ← attempt (redirects.forM (redirect true))
  match outcome with
  | .error .failed =>
    restore before redirects
    return none
  | .error j => jump j
  | .ok _ =>
    let outcome ← attempt run
    restore before redirects
    return some (← resume outcome)

end Run
end Conformance.Shell
