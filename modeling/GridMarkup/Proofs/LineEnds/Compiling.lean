import GridMarkup.Proofs.Faults
import GridMarkup.Proofs.LineEnds.Expanding
import GridMarkup.Proofs.Verbatim

/-!
# Line endings in a compilation

A source with the other line ending compiles to the same markup with the other line ending, or fails
in the same way at the same line and column.
-/

namespace GridMarkup

open Text Scan
open Token (writeFrom write)

variable {s : List Char} {fault : Fault}

/-! ## Places -/

/-- The same line and column, whatever bytes stand before them. -/
structure Position.SamePlace (p q : Position) : Prop where
  line : q.line = p.line
  column : q.column = p.column

structure Span.SamePlace (a b : Span) : Prop where
  start : a.start.SamePlace b.start
  stop : a.stop.SamePlace b.stop

variable {p q : Position}

theorem Position.SamePlace.next (h : p.SamePlace q) (c : Char) :
    (p.next c).SamePlace (q.next c) := by
  constructor <;> simp only [Position.next, h.line, h.column]

theorem Position.SamePlace.after (h : p.SamePlace q) (s : List Char) :
    (p.after s).SamePlace (q.after s) := by
  induction s generalizing p q with
  | nil => exact h
  | cons c s ih => exact ih (h.next c)

/-- A carriage return takes a column, but the line feed behind it starts a new line. -/
theorem Position.SamePlace.after_crlf (h : p.SamePlace q) (s : List Char) :
    (p.after s).SamePlace (q.after (crlf s)) := by
  induction s generalizing p q with
  | nil => exact h
  | cons c s ih =>
    by_cases hc : c = '\n'
    · subst hc
      refine ih ?_
      constructor <;> simp [Position.next, h.line]
    · rw [crlf_cons hc]
      exact ih (h.next c)

theorem span_crlf (o : Opening) (h : o.source <:+ s) :
    (o.span s).SamePlace (o.crlf.span (crlf s)) := by
  obtain ⟨before, rfl⟩ := h
  have hcrlf : o.crlf.span (crlf before ++ crlf o.source) =
      ⟨Position.after {} (crlf before), (Position.after {} (crlf before)).after o.text⟩ :=
    o.crlf.span_append (crlf before)
  have hstart : (Position.after {} before).SamePlace (Position.after {} (crlf before)) :=
    Position.SamePlace.after_crlf ⟨rfl, rfl⟩ before
  rw [crlf_append, hcrlf, o.span_append]
  exact ⟨hstart, hstart.after o.text⟩

/-! ## Diagnostics -/

/-- The same fault at the same place. -/
structure Diagnostic.SamePlace (d e : Diagnostic) : Prop where
  kind : e.kind = d.kind
  message : e.message = d.message
  span : d.span.SamePlace e.span
  related : Option.Rel Span.SamePlace d.related e.related
  label : e.label = d.label
  help : e.help = d.help

theorem diagnostic_crlf (h : fault.Within s) :
    (fault.diagnostic s).SamePlace (fault.crlf.diagnostic (crlf s)) := by
  cases fault with
  | attributeValue name quote opening tag =>
    exact ⟨rfl, rfl, span_crlf opening h.1, .some (span_crlf tag h.2), rfl, rfl⟩
  | comment opening => exact ⟨rfl, rfl, span_crlf opening h, .none, rfl, rfl⟩
  | declaration opening => exact ⟨rfl, rfl, span_crlf opening h, .none, rfl, rfl⟩
  | endTag name opening => exact ⟨rfl, rfl, span_crlf opening h, .none, rfl, rfl⟩
  | startTag name opening => exact ⟨rfl, rfl, span_crlf opening h, .none, rfl, rfl⟩

/-! ## Compilations -/

/-- The same markup with the other line ending, or the same fault at the same place. -/
def OtherEnds : Except Diagnostic String → Except Diagnostic String → Prop
  | .ok html, .ok html' => html' = crlfString html
  | .error d, .error e => d.SamePlace e
  | _, _ => False

/-- A carriage return in front of every line feed of a source changes nothing but line endings. -/
theorem compile_crlf {o : Options} {source : String} (hdecode : o.decode = false)
    (hsource : '\r' ∉ source.toList) :
    OtherEnds (compile o source).result (compile o (crlfString source)).result := by
  have hscan := scan_crlf source.toList
  cases htokens : scan false source.toList with
  | error fault =>
    rw [htokens] at hscan
    have hplain : (compile o source).result = .error (fault.diagnostic source.toList) := by
      rw [compile, readTokens, hdecode, htokens]
    have hcrlf : (compile o (crlfString source)).result =
        .error (fault.crlf.diagnostic (crlf source.toList)) := by
      rw [compile, readTokens, hdecode, toList_crlfString, hscan]
      rfl
    rw [hplain, hcrlf]
    exact diagnostic_crlf (within_scan htokens)
  | ok tokens =>
    rw [htokens] at hscan
    have hplain : (compile o source).result = .ok (write false (o.expand tokens)) := by
      rw [← hdecode]
      refine compile_of_read (readTokens_eq_ok_iff.2 ?_)
      rw [hdecode, htokens]
    have hcrlf : (compile o (crlfString source)).result =
        .ok (write false (o.expand (tokens.map Token.crlf))) := by
      rw [← hdecode]
      refine compile_of_read (readTokens_eq_ok_iff.2 ?_)
      rw [hdecode, toList_crlfString, hscan]
      rfl
    obtain ⟨hframed, -⟩ := framed_scan htokens
    have hsent : Sendable true (o.expand tokens) :=
      sendable_run o ⟨hframed.writable, hframed.rawFramed⟩
    rw [hplain, hcrlf, o.expand_crlf (noReturn_scan htokens hsource)]
    change String.ofList _ = crlfString (String.ofList _)
    rw [writeFrom_crlf hsent.writable, crlfString_ofList]

/-- A row with a block in it, whose lines get the indentation of the block. -/
theorem compile_crlf_page :
    (compile {} (crlfString "<r a=\"\n\">\n  <js>a\nb\n</js>\n</r>")).result =
      .ok (crlfString ("<div a=\"\n\" class=\"row\"><div class=\"col-md-12\">\n  " ++
        "<script src=\"a\"></script>\n  <script src=\"b\"></script>\n</div></div>")) := by
  have hplain : (compile {} "<r a=\"\n\">\n  <js>a\nb\n</js>\n</r>").result =
      .ok ("<div a=\"\n\" class=\"row\"><div class=\"col-md-12\">\n  " ++
        "<script src=\"a\"></script>\n  <script src=\"b\"></script>\n</div></div>") := by
    decide +kernel
  have hsource : '\r' ∉ "<r a=\"\n\">\n  <js>a\nb\n</js>\n</r>".toList := by decide
  have hends := compile_crlf (o := {}) rfl hsource
  rw [hplain] at hends
  cases hcrlf : (compile {} (crlfString "<r a=\"\n\">\n  <js>a\nb\n</js>\n</r>")).result with
  | error d =>
    rw [hcrlf] at hends
    exact hends.elim
  | ok html =>
    rw [hcrlf] at hends
    exact congrArg Except.ok hends

end GridMarkup
