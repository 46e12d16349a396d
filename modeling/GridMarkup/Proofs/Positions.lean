import GridMarkup.Proofs.Faults
import GridMarkup.Diagnostic
import GridMarkup.Text.Blank
import Mathlib.Data.List.Induction

/-!
# Positions behind a text

A position counts the bytes and line feeds before it, and the characters since the last line feed.
So text in front of a source moves every position in it: lines by the line feeds of the text, and
columns only on the first line.
-/

namespace GridMarkup

open Text

/-- The text behind the last line feed. -/
def Text.lastLine (s : List Char) : List Char := trailing (· != '\n') s

/-- The position in a source, where `front` stands before the source. -/
def Position.behind (front : String) (p : Position) : Position where
  byte := front.utf8ByteSize + p.byte
  line := front.toList.count '\n' + p.line
  column := if p.line = 0 then (lastLine front.toList).length + p.column else p.column

def Span.behind (front : String) (span : Span) : Span :=
  ⟨span.start.behind front, span.stop.behind front⟩

def Diagnostic.behind (front : String) (d : Diagnostic) : Diagnostic :=
  { d with span := d.span.behind front, related := d.related.map (Span.behind front) }

variable {s t : List Char} {front : String} {fault : Fault} {opening : Opening}

theorem Text.lastLine_append_singleton (s : List Char) (c : Char) :
    lastLine (s ++ [c]) = if c = '\n' then [] else lastLine s ++ [c] := by
  unfold lastLine trailing
  rw [List.reverse_append, List.reverse_singleton, List.singleton_append, List.takeWhile_cons]
  by_cases hc : c = '\n' <;> simp [hc]

theorem Text.utf8ByteSize_append (s t : List Char) :
    (String.ofList (s ++ t)).utf8ByteSize =
      (String.ofList s).utf8ByteSize + (String.ofList t).utf8ByteSize := by
  rw [String.ofList_append, String.utf8ByteSize_append]

/-- What a position counts. -/
theorem Position.after_eq (s : List Char) :
    Position.after {} s =
      ⟨(String.ofList s).utf8ByteSize, s.count '\n', (lastLine s).length⟩ := by
  induction s using List.reverseRecOn with
  | nil => rfl
  | append_singleton s c ih =>
    have hbytes : (String.ofList (s ++ [c])).utf8ByteSize =
        (String.ofList s).utf8ByteSize + c.utf8Size := by
      rw [Text.utf8ByteSize_append, ← String.singleton_eq_ofList, String.utf8ByteSize_singleton]
    rw [after_append, ih, after_cons, after_nil, next, hbytes, Text.lastLine_append_singleton]
    by_cases hc : c = '\n' <;> simp [hc]

/-! ## Text in front -/

theorem Position.behind_next (front : String) (p : Position) (c : Char) :
    (p.behind front).next c = (p.next c).behind front := by
  unfold next behind
  by_cases hc : c = '\n'
  · simp [hc]
    omega
  · by_cases hline : p.line = 0
    · simp [hc, hline]
      omega
    · simp [hc, hline]
      omega

theorem Position.behind_after (front : String) (p : Position) (s : List Char) :
    (p.behind front).after s = (p.after s).behind front := by
  induction s generalizing p with
  | nil => rfl
  | cons c s ih => rw [after_cons, after_cons, behind_next, ih]

/-- Text in front moves the end of a text. -/
theorem Position.after_front (front : String) (s : List Char) :
    Position.after {} (front.toList ++ s) = (Position.after {} s).behind front := by
  have hfront : Position.after {} front.toList = Position.behind front {} := by
    rw [after_eq, String.ofList_toList]
    rfl
  rw [after_append, hfront, behind_after]

theorem Opening.span_front (h : opening.source <:+ s) :
    opening.span (front.toList ++ s) = (opening.span s).behind front := by
  obtain ⟨before, rfl⟩ := h
  rw [← List.append_assoc, span_append, span_append, Position.after_front, Position.behind_after]
  rfl

/-- Text in front moves a diagnostic and leaves what it says. -/
theorem Fault.diagnostic_front (h : fault.Within s) :
    fault.diagnostic (front.toList ++ s) = (fault.diagnostic s).behind front := by
  cases fault with
  | attributeValue name quote opening tag =>
    simp only [diagnostic, Opening.span_front h.1, Opening.span_front h.2]
    rfl
  | _ =>
    simp only [diagnostic, Opening.span_front h]
    rfl

end GridMarkup
