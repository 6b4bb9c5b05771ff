import Mathlib.Data.Prod.Lex
import Narrative.Story

/-!
# What the range of a call spans

The range of a call is widened by the calls among its arguments, and by those among
their arguments in turn. It spans the ranges of all calls that are passed on like
this and no more: it begins where one of them begins and ends where one of them ends,
whichever of them have a range at all. A call that is only part of an argument, as an
operand, is not passed on, and the range may leave it out.
-/

namespace Narrative

namespace Position

/-! ## Positions in order -/

/-- Positions are compared by line first and by character within a line. -/
def key (position : Position) : ℕ ×ₗ ℕ := toLex (position.line, position.character)

theorem notAfter_iff {a b : Position} : a.notAfter b = true ↔ a.key ≤ b.key := by
  rw [key, key, Prod.Lex.toLex_le_toLex, notAfter, Bool.or_eq_true, Bool.and_eq_true,
    decide_eq_true_eq, beq_iff_eq, decide_eq_true_eq]

theorem earliest_choice (a b : Position) :
    a.earliest b = a ∧ a.key ≤ b.key ∨ a.earliest b = b ∧ b.key ≤ a.key := by
  rw [earliest]
  split
  · next h => exact Or.inl ⟨rfl, notAfter_iff.mp h⟩
  · next h => exact Or.inr ⟨rfl, le_of_not_ge (mt notAfter_iff.mpr h)⟩

theorem latest_choice (a b : Position) :
    a.latest b = a ∧ b.key ≤ a.key ∨ a.latest b = b ∧ a.key ≤ b.key := by
  rw [latest]
  split
  · next h => exact Or.inl ⟨rfl, notAfter_iff.mp h⟩
  · next h => exact Or.inr ⟨rfl, le_of_not_ge (mt notAfter_iff.mpr h)⟩

theorem key_earliest_le (a b : Position) :
    (a.earliest b).key ≤ a.key ∧ (a.earliest b).key ≤ b.key := by
  rcases a.earliest_choice b with ⟨hfirst, hle⟩ | ⟨hfirst, hle⟩
  · rw [hfirst]
    exact ⟨le_refl _, hle⟩
  · rw [hfirst]
    exact ⟨hle, le_refl _⟩

theorem le_key_latest (a b : Position) : a.key ≤ (a.latest b).key ∧ b.key ≤ (a.latest b).key := by
  rcases a.latest_choice b with ⟨hlast, hle⟩ | ⟨hlast, hle⟩
  · rw [hlast]
    exact ⟨le_refl _, hle⟩
  · rw [hlast]
    exact ⟨hle, le_refl _⟩

end Position

namespace SourceRange

/-! ## Ranges that cover others -/

/-- A range begins no later than another and ends no earlier. -/
def Covers (outer inner : SourceRange) : Prop :=
  outer.start.key ≤ inner.start.key ∧ inner.stop.key ≤ outer.stop.key

instance (outer inner : SourceRange) : Decidable (outer.Covers inner) :=
  inferInstanceAs (Decidable (_ ∧ _))

theorem Covers.refl (range : SourceRange) : range.Covers range := ⟨le_refl _, le_refl _⟩

theorem Covers.trans {outer mid inner : SourceRange} (h : outer.Covers mid) (hmid : mid.Covers inner) :
    outer.Covers inner :=
  ⟨le_trans h.1 hmid.1, le_trans hmid.2 h.2⟩

theorem merge_covers (a b : SourceRange) : (a.merge b).Covers a ∧ (a.merge b).Covers b := by
  obtain ⟨hstart, hstart'⟩ := a.start.key_earliest_le b.start
  obtain ⟨hstop, hstop'⟩ := a.stop.le_key_latest b.stop
  exact ⟨⟨hstart, hstop⟩, hstart', hstop'⟩

/-- A range begins where one of several ranges begins, and ends where one of them ends. -/
def SpannedBy (S : SourceRange → Prop) (whole : SourceRange) : Prop :=
  (∃ first, S first ∧ first.start = whole.start) ∧ ∃ last, S last ∧ last.stop = whole.stop

theorem SpannedBy.merge {S : SourceRange → Prop} {a b : SourceRange} (ha : SpannedBy S a)
    (hb : SpannedBy S b) : SpannedBy S (a.merge b) := by
  constructor
  · rcases a.start.earliest_choice b.start with ⟨hstart, -⟩ | ⟨hstart, -⟩
    · simpa only [SourceRange.merge, hstart] using ha.1
    · simpa only [SourceRange.merge, hstart] using hb.1
  · rcases a.stop.latest_choice b.stop with ⟨hstop, -⟩ | ⟨hstop, -⟩
    · simpa only [SourceRange.merge, hstop] using ha.2
    · simpa only [SourceRange.merge, hstop] using hb.2

theorem SpannedBy.mono {S T : SourceRange → Prop} {whole : SourceRange} (h : SpannedBy S whole)
    (hST : ∀ range, S range → T range) : SpannedBy T whole := by
  obtain ⟨⟨first, hfirst, hstart⟩, last, hlast, hstop⟩ := h
  exact ⟨⟨first, hST first hfirst, hstart⟩, last, hST last hlast, hstop⟩

end SourceRange

namespace Expression

/-! ## Calls in an expression -/

/-- A call occurs in an expression, at whatever depth and under whatever operators. -/
inductive Holds (inner : Call) : Expression → Prop where
  | here : Holds inner inner.toExpression
  | argument {name : String} {arguments : List Expression} {range : Option SourceRange}
      {argument : Expression} : argument ∈ arguments → Holds inner argument →
      Holds inner (.call name arguments range)
  | left {operator : BinaryOperator} {left right : Expression} : Holds inner left →
      Holds inner (.binary operator left right)
  | right {operator : BinaryOperator} {left right : Expression} : Holds inner right →
      Holds inner (.binary operator left right)
  | operand {operator : UnaryOperator} {operand : Expression} : Holds inner operand →
      Holds inner (.unary operator operand)

/-- A call is the expression, or it is passed on by one of the arguments, which is a call itself. -/
inductive Passes (inner : Call) : Expression → Prop where
  | here : Passes inner inner.toExpression
  | argument {name : String} {arguments : List Expression} {range : Option SourceRange}
      {argument : Expression} : argument ∈ arguments → Passes inner argument →
      Passes inner (.call name arguments range)

/-- The ranges of the calls that an expression passes on. -/
def PassesRange (expression : Expression) (range : SourceRange) : Prop :=
  ∃ inner : Call, Passes inner expression ∧ inner.range = some range

/-! ## Nothing that is passed on is left out -/

/-- There is a range, and it covers another one. -/
def Reaches (whole : Option SourceRange) (range : SourceRange) : Prop :=
  ∃ covering, whole = some covering ∧ covering.Covers range

theorem Reaches.join_left {outer : Option SourceRange} {range : SourceRange} (h : Reaches outer range)
    (inner : Option SourceRange) : Reaches (joinRanges outer inner) range := by
  obtain ⟨covering, rfl, hcovers⟩ := h
  cases inner with
  | none => exact ⟨covering, rfl, hcovers⟩
  | some inner => exact ⟨_, rfl, (covering.merge_covers inner).1.trans hcovers⟩

theorem Reaches.join_right {inner : Option SourceRange} {range : SourceRange}
    (h : Reaches inner range) (outer : Option SourceRange) :
    Reaches (joinRanges outer inner) range := by
  obtain ⟨covering, rfl, hcovers⟩ := h
  cases outer with
  | none => exact ⟨covering, rfl, hcovers⟩
  | some outer => exact ⟨_, rfl, (outer.merge_covers covering).2.trans hcovers⟩

/-- What is reached before the arguments is reached after them. -/
theorem Reaches.arguments {start : Option SourceRange} {range : SourceRange} (h : Reaches start range)
    (arguments : List Expression) : Reaches (argumentsRange? start arguments) range := by
  induction arguments generalizing start with
  | nil =>
    rw [argumentsRange?]
    exact h
  | cons argument rest ih =>
    rw [argumentsRange?]
    exact ih (h.join_left _)

theorem Reaches.of_mem {argument : Expression} {range : SourceRange}
    (h : Reaches argument.callRange? range) {arguments : List Expression} (hmem : argument ∈ arguments)
    (start : Option SourceRange) : Reaches (argumentsRange? start arguments) range := by
  induction arguments generalizing start with
  | nil => cases hmem
  | cons first rest ih =>
    rw [argumentsRange?]
    rcases List.mem_cons.mp hmem with rfl | hmem
    · exact (h.join_right start).arguments rest
    · exact ih hmem _

theorem Passes.reaches {expression : Expression} {inner : Call} {range : SourceRange}
    (h : Passes inner expression) (hrange : inner.range = some range) :
    Reaches expression.callRange? range := by
  induction h with
  | here =>
    rw [Call.toExpression, callRange?, hrange]
    exact Reaches.arguments ⟨range, rfl, .refl range⟩ inner.arguments
  | argument hmem _ ih =>
    rw [callRange?]
    exact ih.of_mem hmem _

/-! ## Nothing else is taken in -/

theorem spannedBy_join {S : SourceRange → Prop} {outer inner : Option SourceRange}
    (houter : ∀ range, outer = some range → range.SpannedBy S)
    (hinner : ∀ range, inner = some range → range.SpannedBy S) :
    ∀ range, joinRanges outer inner = some range → range.SpannedBy S := by
  intro range h
  cases outer with
  | none =>
    cases inner with
    | none => cases h
    | some inner =>
      cases h
      exact hinner _ rfl
  | some outer =>
    cases inner with
    | none =>
      cases h
      exact houter _ rfl
    | some inner =>
      cases h
      exact (houter _ rfl).merge (hinner _ rfl)

mutual

theorem spannedBy_callRange? : ∀ {expression : Expression} {whole : SourceRange},
    expression.callRange? = some whole → whole.SpannedBy expression.PassesRange
  | .call title arguments range, whole, h => by
    rw [callRange?] at h
    refine spannedBy_argumentsRange? (fun own hown => ?_) (fun argument hmem other hother => ?_) h
    · have hhere : PassesRange (.call title arguments range) own :=
        ⟨⟨title, arguments, range⟩, .here, hown⟩
      exact ⟨⟨own, hhere, rfl⟩, own, hhere, rfl⟩
    · obtain ⟨inner, hpasses, hrange⟩ := hother
      exact ⟨inner, .argument hmem hpasses, hrange⟩
  | .int _, _, h | .float _, _, h | .bool _, _, h | .string _, _, h | .name _, _, h
  | .target _, _, h | .binary _ _ _, _, h | .unary _ _, _, h => nomatch h

theorem spannedBy_argumentsRange? : ∀ {arguments : List Expression} {S : SourceRange → Prop}
    {start : Option SourceRange} {whole : SourceRange},
    (∀ range, start = some range → range.SpannedBy S) →
    (∀ argument ∈ arguments, ∀ range, argument.PassesRange range → S range) →
    argumentsRange? start arguments = some whole → whole.SpannedBy S
  | [], _, _, _, hstart, _, h => by
    rw [argumentsRange?] at h
    exact hstart _ h
  | argument :: rest, S, start, whole, hstart, hS, h => by
    rw [argumentsRange?] at h
    rw [List.forall_mem_cons] at hS
    have hargument : ∀ range, argument.callRange? = some range → range.SpannedBy S :=
      fun range hrange => (spannedBy_callRange? hrange).mono hS.1
    exact spannedBy_argumentsRange? (spannedBy_join hstart hargument) hS.2 h

end

end Expression

namespace Call

open Expression

/-- The range of a call covers the range of every call that it passes on, and is spanned by these. -/
theorem sourceRange_spans_passed (call : Call) :
    (∀ inner range, Passes inner call.toExpression → inner.range = some range →
      ∃ whole, call.sourceRange? = some whole ∧ whole.Covers range) ∧
      ∀ whole, call.sourceRange? = some whole → whole.SpannedBy call.toExpression.PassesRange := by
  constructor
  · intro inner range hpasses hrange
    exact hpasses.reaches hrange
  · intro whole hwhole
    exact spannedBy_callRange? hwhole

/-- Only the outermost and the innermost of three calls have a range. -/
example : (Call.mk "f" [.int 1, .call "g" [.call "h" [] (some (.lines none 5 6))] none]
    (some (.lines none 4 4))).sourceRange? = some (.lines none 4 6) := by
  decide

/-- A call as an operand in the argument of another call, on later lines. -/
def sumCall : Call where
  name := "f"
  arguments := [.binary .add (.int 1) (.call "g" [] (some (.lines none 5 6)))]
  range := some (.lines none 4 4)

/-- The range of a call does not cover a call that its argument adds something to. -/
theorem sourceRange_misses_operand :
    ¬ ∀ (call inner : Call) (range : SourceRange), Holds inner call.toExpression →
      inner.range = some range → ∃ whole, call.sourceRange? = some whole ∧ whole.Covers range := by
  intro h
  have hholds : Holds ⟨"g", [], some (.lines none 5 6)⟩ sumCall.toExpression :=
    .argument List.mem_cons_self (.right .here)
  obtain ⟨whole, hwhole, hcovers⟩ := h sumCall _ _ hholds rfl
  have hown : sumCall.sourceRange? = some (.lines none 4 4) := by decide
  cases hwhole.symm.trans hown
  exact absurd hcovers (by decide)

end Call

end Narrative
