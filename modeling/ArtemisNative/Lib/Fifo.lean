/-
ArtemisNative/Lib/Fifo.lean

What it means for a channel to lose, duplicate and reorder nothing.

A `Fifo` is a queue with the histories of its two ends.  The only things that
happen to it are that one value is pushed, or that some of the oldest values
are popped; both keep

    popped ++ queue = pushed,

from which all the rest follows.  An implementation is shown correct by a map
into `Fifo` under which each of its steps is a `Step` or changes nothing.
-/
import Mathlib.Data.List.Count
import Mathlib.Data.List.TakeDrop

/-- A queue, oldest value first, and everything ever pushed and popped. -/
structure Fifo (α : Type*) where
  pushed : List α
  popped : List α
  queue : List α

namespace Fifo

variable {α : Type*} {q q' : Fifo α}

/-- An empty history, with some values already in the queue. -/
def start (queue : List α) : Fifo α := ⟨queue, [], queue⟩

def push (q : Fifo α) (a : α) : Fifo α :=
  { q with pushed := q.pushed ++ [a], queue := q.queue ++ [a] }

/-- The `k` oldest values leave the queue. -/
def pop (q : Fifo α) (k : ℕ) : Fifo α :=
  { q with popped := q.popped ++ q.queue.take k, queue := q.queue.drop k }

inductive Step (q : Fifo α) : Fifo α → Prop
  | idle : Step q q
  | push (a : α) : Step q (q.push a)
  | pop (k : ℕ) : Step q (q.pop k)

/-- What was popped, followed by what is in the queue, is what was pushed. -/
def Lawful (q : Fifo α) : Prop := q.popped ++ q.queue = q.pushed

theorem lawful_start (queue : List α) : (start queue).Lawful := rfl

theorem Step.lawful (h : q.Lawful) (hs : Step q q') : q'.Lawful := by
  unfold Lawful at h ⊢
  cases hs with
  | idle => exact h
  | push a => simp [Fifo.push, ← h]
  | pop k => simp [Fifo.pop, ← h]

end Fifo
