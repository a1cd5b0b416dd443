import TapeMachine.Trace.Row
import TapeMachine.Trace.Sink
set_option autoImplicit false

/-!
# Trace: the lines of a table

The table of a trace as a list of lines, and a sink without a capacity as the place where such a list
ends up.  Writing a line to such a sink appends it to the list (`writeLine_after`), so the bytes of a
trace need not be looked at while a run is followed.
-/

namespace TapeMachine

/-- The lines of the table with these rows. -/
def Row.table (rows : List Row) : List String :=
  headings :: ruler :: rows.mapIdx line

/-- The text that consists of these lines. -/
def Text.ofLines (lines : List String) : String :=
  String.ofList (lines.flatMap fun line => line.toList ++ ['\n'])

/-- The sink after it has taken all of these lines. -/
def Sink.after (s : Sink) (lines : List String) : Sink :=
  { s with
    written := s.written ++ (Text.ofLines lines).toUTF8
    lines := s.lines + lines.length }

/-- The sink has taken nothing so far and will take everything.  It may ask for the run to be
cancelled. -/
structure Sink.Fresh (s : Sink) : Prop where
  written_eq : s.written = ByteArray.empty
  lines_eq : s.lines = 0
  capacity_eq : s.capacity = none

@[simp] theorem Row.length_table (rows : List Row) : (table rows).length = 2 + rows.length := by
  simp [table]
  omega

theorem Row.table_concat (rows : List Row) (row : Row) :
    table (rows ++ [row]) = table rows ++ [row.line rows.length] := by
  simp [table, List.mapIdx_concat]

@[simp] theorem Text.ofLines_nil : ofLines [] = "" := rfl

theorem Text.ofLines_append (a b : List String) : ofLines (a ++ b) = ofLines a ++ ofLines b := by
  rw [ofLines, List.flatMap_append, String.ofList_append]
  rfl

theorem Text.ofLines_concat (lines : List String) (line : String) :
    ofLines (lines ++ [line]) = ofLines lines ++ line.push '\n' := by
  rw [ofLines_append]
  congr 1
  apply String.toList_inj.1
  simp [ofLines]

namespace Sink

@[simp] theorem after_nil (s : Sink) : s.after [] = s := by
  simp [after]

@[simp] theorem cancelAt_after (s : Sink) (lines : List String) :
    (s.after lines).cancelAt = s.cancelAt := rfl

/-- A sink without a capacity takes every line. -/
theorem writeLine_after {s : Sink} (h : s.capacity = none) (lines : List String) (line : String) :
    (s.after lines).writeLine line = (s.after (lines ++ [line]), true) := by
  have hcapacity : (s.after lines).capacity = none := h
  simp only [writeLine, room_unlimited hcapacity, if_pos]
  simp only [after, Text.ofLines_concat, String.toUTF8_eq_toByteArray, String.toByteArray_append,
    ByteArray.append_assoc, List.length_append, List.length_singleton, Nat.add_assoc]

theorem fresh_empty (cancelAt : Option Nat) : (empty none cancelAt).Fresh := ⟨rfl, rfl, rfl⟩

/-- A sink that was fresh holds the lines it has taken. -/
theorem Fresh.written_after {s : Sink} (h : s.Fresh) (lines : List String) :
    (s.after lines).written = (Text.ofLines lines).toUTF8 := by
  simp only [after, h.written_eq, ByteArray.empty_append]

/-- When the request to stop comes from the trace. -/
theorem asksToCancel_after (s : Sink) (lines : List String) :
    (s.after lines).asksToCancel = s.cancelAt.any fun n => n ≤ s.lines + lines.length := by
  simp only [asksToCancel, cancelAt_after]
  cases s.cancelAt <;> rfl

end Sink

end TapeMachine
