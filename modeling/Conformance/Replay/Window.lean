import Conformance.Word
/-!
# Replay windows

A window retains the sequence numbers it has seen that are not too far below the
current one. Only an exact repeat of a retained number is a replay; how far a
number lies from the others never matters by itself.
-/
namespace Conformance.Replay

/-- The retained numbers in ascending order. -/
structure Window where
  width : Int
  retained : List Int
  deriving DecidableEq

namespace Window

def new (width : Int) : Window :=
  ⟨width, []⟩

/-- Numbers below this one are too old beside the current number. -/
def cutoff (w : Window) (current : Int) : Int :=
  Word.saturate (current - w.width)

/-- Drops the numbers that are too old, which stand first; nothing is done while the least one is
not too old. -/
def evict (w : Window) (current : Int) : Window :=
  match w.retained with
  | [] => w
  | least :: _ =>
    if least < w.cutoff current then
      { w with retained := w.retained.dropWhile (· < w.cutoff current) }
    else w

/-- Puts a number that is not retained into its place. -/
def insert (n : Int) : List Int → List Int
  | [] => [n]
  | m :: rest => if n < m then n :: m :: rest else m :: insert n rest

/-- Whether a number is a replay, and the window after it. -/
def observe (w : Window) (current : Int) : Bool × Window :=
  let w := w.evict current
  if w.retained.contains current then (true, w)
  else (false, { w with retained := insert current w.retained })

/-- For every number of a stream: whether it is a replay, and the window after it. -/
def run (w : Window) : List Int → List (Bool × Window)
  | [] => []
  | n :: rest =>
    let step := w.observe n
    step :: run step.2 rest

end Window

/-- Whether a stream holds a replay under a fresh window. -/
def detect (width : Int) (stream : List Int) : Bool :=
  ((Window.new width).run stream).any (·.1)

end Conformance.Replay
