import Conformance.Decimal.Nearest
/-!
# Replay storms

Two models of a burst of messages that arrives faster than it can be served: a
closed form over the whole burst, and a queue that is simulated millisecond by
millisecond. Both are written over the arithmetic that they need, so that one
definition serves doubles and exact numbers.
-/
namespace Conformance.Replay

/-- The arithmetic of message counts, rates and durations. -/
class Quantity (α : Type) extends Zero α, One α, Add α, Sub α, Mul α, Div α where
  larger : α → α → α
  smaller : α → α → α
  below : α → α → Bool
  atMost : α → α → Bool

/-- Of a double and something that is no number, both bounds give the double. -/
instance : Quantity Float where
  zero := 0.0
  one := 1.0
  larger a b := if a.isNaN then b else if a < b then b else a
  smaller a b := if a.isNaN then b else if b < a then b else a
  below a b := a < b
  atMost a b := a ≤ b

instance : Quantity Rat where
  zero := Rat.ofInt 0
  one := Rat.ofInt 1
  add := Rat.add
  sub := Rat.sub
  mul := Rat.mul
  div := Rat.div
  larger a b := if Rat.blt a b then b else a
  smaller a b := if Rat.blt b a then b else a
  below := Rat.blt
  atMost a b := !Rat.blt b a

section
variable {α : Type} [Quantity α]
open Quantity

def isPositive (a : α) : Bool := below 0 a

/-- What a sustained burst does to a window: it admits the window and what is served meanwhile. -/
structure StormModel (α : Type) where
  window : α
  capacityPerMs : α

structure StormOutcome (α : Type) where
  total : α
  capacity : α
  dropRatio : α

def StormModel.evaluate (m : StormModel α) (burstRate duration : α) : StormOutcome α :=
  let total := burstRate * duration
  let capacity := m.capacityPerMs * duration + m.window
  let excess := larger (total - capacity) 0
  ⟨total, capacity, if atMost total 0 then 0 else smaller (excess / total) 1⟩

/-- A queue with a limit, served at a constant rate. -/
structure Queue (α : Type) where
  windowSize : α
  capacityPerMs : α
  limit : α

/-- Parameters below their least sensible values are raised to them; a queue without a limit of its
own holds `factor` windows. -/
def Queue.new (factor window capacityPerMs : α) (limit : Option α) : Queue α :=
  ⟨larger window 1, larger capacityPerMs 0, larger (limit.getD (window * factor)) 1⟩

/-- Running totals of a simulation, in messages. -/
structure Traffic (α : Type) where
  pending : α
  processed : α
  dropped : α
  total : α
  deepest : α
  waiting : α

def Traffic.none : Traffic α :=
  ⟨0, 0, 0, 0, 0, 0⟩

/-- One millisecond: the burst arrives, the queue is served, and what exceeds its limit is
dropped. -/
def Queue.tick (q : Queue α) (burstRate : α) (t : Traffic α) : Traffic α :=
  let arrived := t.pending + burstRate
  let served := smaller arrived q.capacityPerMs
  let left := arrived - served
  let overflow := larger (left - q.limit) 0
  let pending := left - overflow
  { pending
    processed := t.processed + served
    dropped := t.dropped + overflow
    total := t.total + burstRate
    deepest := larger t.deepest pending
    waiting := t.waiting + pending }

def Queue.run (q : Queue α) (burstRate : α) : (milliseconds : Nat) → Traffic α → Traffic α
  | 0, t => t
  | n + 1, t => q.run burstRate n (q.tick burstRate t)

def Traffic.dropRatio (t : Traffic α) : α :=
  if isPositive t.total then smaller (t.dropped / t.total) 1 else 0

def Traffic.deliveryRatio (t : Traffic α) : α :=
  if isPositive t.total then t.processed / t.total else 0

/-- The mean depth of the queue over a duration. -/
def Traffic.latency (t : Traffic α) (duration : α) : α :=
  if isPositive duration then t.waiting / duration else t.waiting

end

def within (actual expected tolerance : Float) : Bool :=
  (actual - expected).abs ≤ tolerance

/-- The tolerance of the closed form. -/
def modelTolerance : Float := 0.1

def StormModel.accepts (m : StormModel Float) (burstRate duration expected : Float) : Bool :=
  within (m.evaluate burstRate duration).dropRatio expected modelTolerance

/-- How many windows a queue holds by default. -/
def defaultLimitFactor : Float := 8.0

/-- Whole milliseconds of a duration; none of a negative one. -/
def wholeMilliseconds (duration : Float) : Nat :=
  (Quantity.larger duration 0).toUInt64.toNat

end Conformance.Replay
