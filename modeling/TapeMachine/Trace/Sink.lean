set_option autoImplicit false

/-!
# Trace: sinks

Where the lines of a trace go.  A sink keeps what it has been given, so that a run stays a plain
value.  It may have a `capacity`: it then takes that many bytes in all, and a line that does not fit
is cut there and counts as refused.  It may also ask for the run to be cancelled once a number of
lines have been written.

Nothing else about a writer can matter to a run, since the first refused line ends it and a request
to cancel is never taken back: the byte at which a writer first refuses and the line at which it first
asks describe it completely.
-/

namespace TapeMachine

/-- Bytes are compared as the core library does it, whatever else is imported. -/
instance (priority := high) instDecidableEqBytes : DecidableEq ByteArray := ByteArray.instDecidableEq

/-- A destination for the lines of a trace. -/
structure Sink where
  /-- All bytes taken so far. -/
  written : ByteArray
  /-- The number of complete lines taken so far. -/
  lines : Nat
  /-- How many bytes are taken in all; every number if absent. -/
  capacity : Option Nat
  /-- After how many lines the run is asked to stop; never if absent. -/
  cancelAt : Option Nat
  deriving DecidableEq, Inhabited

namespace Sink

/-- An empty sink. -/
def empty (capacity cancelAt : Option Nat) : Sink := ⟨ByteArray.empty, 0, capacity, cancelAt⟩

/-- An empty sink that takes everything and asks for nothing. -/
def unlimited : Sink := empty none none

/-- What a refused line is explained with. -/
def refusal : String := "trace full"

/-- How many of `bytes` more bytes are taken. -/
def room (s : Sink) (bytes : Nat) : Nat :=
  match s.capacity with
  | none => bytes
  | some capacity => min bytes (capacity - s.written.size)

/-- Writes a line; the flag tells whether all of it was taken. -/
def writeLine (s : Sink) (line : String) : Sink × Bool :=
  let bytes := (line.push '\n').toUTF8
  let room := s.room bytes.size
  if room = bytes.size then
    ({ s with written := s.written ++ bytes, lines := s.lines + 1 }, true)
  else
    ({ s with written := s.written ++ bytes.extract 0 room }, false)

/-- The sink asks for the run to be cancelled. -/
def asksToCancel (s : Sink) : Bool :=
  match s.cancelAt with
  | none => false
  | some lines => lines ≤ s.lines

/-- What has been written, and the sink with all of it taken away. -/
def drain (s : Sink) : ByteArray × Sink := (s.written, { s with written := ByteArray.empty })

@[simp] theorem room_unlimited {s : Sink} (h : s.capacity = none) (n : Nat) : s.room n = n := by
  simp [room, h]

theorem writeLine_snd_of_unlimited {s : Sink} (h : s.capacity = none) (line : String) :
    (s.writeLine line).2 = true := by
  simp [writeLine, h]

end Sink

end TapeMachine
