import Narrative.Proofs.Compiler.Mentions
import Narrative.Proofs.Compiler.Wording

/-!
# How code is put together

Lowering puts fragments together in few ways, and what is kept by each of them holds of
all code. `Evaluates` is for what relates code to the expressions whose values it leaves;
`Closed` for what relates code to the names that it looks up, step by step; `Composes`
for what holds of statements because of what holds where they evaluate something. Each of
them is carried through lowering here, once.
-/

namespace Narrative.Compiler

/-! ## Reports -/

/-- Nothing that was reported is an error. -/
def Clean (diagnostics : List Diagnostic) : Prop := ∀ d ∈ diagnostics, d.isError = false

theorem clean_nil : Clean [] := fun _ hd => nomatch hd

theorem clean_append {first second : List Diagnostic} :
    Clean (first ++ second) ↔ Clean first ∧ Clean second := by
  simp [Clean, or_imp, forall_and]

theorem Complaint.not_clean (complaint : Complaint) (range : Option SourceRange)
    (rest : List Diagnostic) : ¬ Clean (complaint.toDiagnostic range :: rest) :=
  fun h => Bool.noConfusion (h _ List.mem_cons_self)

theorem Context.eq_false_of_clean {context : Context} {condition : Bool} {complaint : Complaint}
    {range : Option SourceRange}
    (h : Clean (context.complainIf condition complaint range).diagnostics) : condition = false := by
  cases condition with
  | true => exact absurd h (complaint.not_clean _ [])
  | false => rfl

theorem Fragment.append_empty (fragment : Fragment) : fragment ++ .empty = fragment :=
  congrArg₂ Fragment.mk (List.append_nil _) (List.append_nil _)

theorem Fragment.append_assoc (first second third : Fragment) :
    first ++ second ++ third = first ++ (second ++ third) :=
  congrArg₂ Fragment.mk (List.append_assoc _ _ _) (List.append_assoc _ _ _)

/-! ## Rules of calls -/

namespace CallRule

variable {externals : Dict Nat} {name : String}

theorem command_of_constant {command : Command} (h : ofName externals name = .constant command) :
    command = .choiceCount ∨ command = .turns := by
  rw [ofName] at h
  cases hrule : ofName? name with
  | some rule =>
    rw [hrule] at h
    simp only [ofName?] at hrule
    split_ifs at hrule <;> cases hrule <;> cases h
    · exact Or.inl rfl
    · exact Or.inr rfl
  | none =>
    rw [hrule] at h
    simp only at h
    split at h
    · cases h
    · split at h <;> cases h

theorem get?_of_external {parameters : Nat} (h : ofName externals name = .external parameters) :
    Dict.get? externals name = some parameters := by
  rw [ofName] at h
  cases hrule : ofName? name with
  | some rule =>
    rw [hrule] at h
    simp only [ofName?] at hrule
    split_ifs at hrule <;> cases hrule <;> cases h
  | none =>
    rw [hrule] at h
    simp only at h
    split at h
    · cases h
    · split at h
      · next hexternal =>
        cases h
        exact hexternal
      · cases h

end CallRule

/-- A call that cannot be made leaves nothing but a complaint. -/
theorem exists_complaint_of_refused {context : Context} {call : Call} {lowered : List Fragment}
    {range : Option SourceRange} {rule : CallRule}
    (h : (CallCode.ofRule context call lowered range rule).step = none) :
    ∃ complaint, (CallCode.ofRule context call lowered range rule).before =
      context.complain complaint range := by
  cases rule with
  | query query =>
    simp only [CallCode.ofRule, CallCode.ofQuery] at h ⊢
    split at h
    · cases h
    · cases h
    · exact ⟨_, rfl⟩
  | random =>
    simp only [CallCode.ofRule, CallCode.ofRandom] at h ⊢
    split at h
    · cases h
    · exact ⟨_, rfl⟩
  | seed =>
    simp only [CallCode.ofRule, CallCode.ofSeed] at h ⊢
    split at h
    · cases h
    · exact ⟨_, rfl⟩
  | constant | operator | external | function => cases h

/-- A call whose value nobody uses drops it last. -/
theorem lowerCall_true (context : Context) (call : Call) (lowered : List Fragment) :
    (∃ complaint range, lowerCall context call lowered true = context.complain complaint range) ∨
      lowerCall context call lowered true =
        lowerCall context call lowered false ++ .command .popEvaluatedValue := by
  simp only [lowerCall, CallCode.toFragment]
  split
  · next hstep =>
    obtain ⟨complaint, hbefore⟩ := exists_complaint_of_refused hstep
    exact Or.inl ⟨complaint, _, hbefore⟩
  · exact Or.inr (congrArg (· ++ Fragment.command .popEvaluatedValue) (Fragment.append_empty _)).symm

/-! ## Expressions -/

/-- A number or a truth value as it is written, a sign included. -/
inductive Literal : Expression → Value → Prop where
  | int (n : Int32) : Literal (.int n) (.int n)
  | float (x : Single) : Literal (.float x) (.float x)
  | bool (b : Bool) : Literal (.bool b) (.bool b)
  | negativeInt (n : Int32) : Literal (.unary .negate (.int n)) (.int (-n))
  | negativeFloat (x : Single) : Literal (.unary .negate (.float x)) (.float x.negate)

/-- An expression that is a name, and how the name is looked up. -/
inductive Names (countedBy : Option CountQuery) : Expression → Subject → Prop where
  | reading (name : String) : Names countedBy (.name name) (.reading name countedBy)
  | target (name : String) : Names countedBy (.target name) (.target name countedBy)

/-- The step that makes a call by a rule, and the number of values that it takes off the stack. A
question about visits is made by two steps and has none. -/
inductive CallStep (context : Context) (call : Call) : CallRule → Step → Nat → Prop where
  | constant {command : Command} : command = .choiceCount ∨ command = .turns →
      CallStep context call (.constant command) { leaf := .command command } 0
  | random : CallStep context call .random { leaf := .command .random } 2
  | seed : CallStep context call .seed { leaf := .command .seedRandom } 1
  | operator (o : Operator) : CallStep context call (.operator o) { leaf := .operator o } o.arity
  | external {parameters : Nat} : Dict.get? context.externals call.name = some parameters →
      CallStep context call (.external parameters)
        { leaf := .divert (.external call.name (UInt32.ofNat call.arguments.length)) }
        call.arguments.length
  | function : CallStep context call .function
      (context.jump call.name .function call.arguments.length) call.arguments.length

/-- A relation between code and the expressions whose values it leaves that every form of
expression keeps. -/
structure Evaluates (context : Context) (R : Fragment → List Expression → Prop) : Prop where
  empty : R .empty []
  append : ∀ {first second : Fragment} {before after : List Expression}, R first before →
    R second after → R (first ++ second) (before ++ after)
  /-- Nothing has to hold of what is complained about. -/
  complain : ∀ (complaint : Complaint) (range : Option SourceRange) (expressions : List Expression),
    R (context.complain complaint range) expressions
  literal : ∀ {expression : Expression} {value : Value}, Literal expression value →
    R (.value value) [expression]
  string : ∀ text, R (.command .beginString ++ .value (.string text) ++ .command .endString)
    [.string text]
  name : ∀ {expression : Expression} {subject : Subject}, Names none expression subject →
    R (.ofStep (subject.step context.location none)) [expression]
  binary : ∀ {code : Fragment} (op : BinaryOperator) {left right : Expression},
    R code [left, right] → R (code ++ .leaf (.operator op.operator)) [.binary op left right]
  unary : ∀ {code : Fragment} (op : UnaryOperator) {operand : Expression},
    R code [operand] → R (code ++ .leaf (.operator op.operator)) [.unary op operand]
  question : ∀ {call : Call} {query : CountQuery} {expression : Expression} {subject : Subject}
    (range : Option SourceRange), CallRule.ofName context.externals call.name = .query query →
    call.arguments = [expression] → Names (some query) expression subject →
    R (.ofStep (subject.step context.location none) ++ .ofStep ⟨.command query.command, range, none⟩)
      [call.toExpression]
  call : ∀ {call : Call} {before : Fragment} {step : Step} {arguments : Nat}
    (range : Option SourceRange),
    CallStep context call (CallRule.ofName context.externals call.name) step arguments →
    R before call.arguments → (Clean before.diagnostics → arguments = call.arguments.length) →
    R (before ++ .ofStep { step with range }) [call.toExpression]

namespace Evaluates

variable {context : Context} {R : Fragment → List Expression → Prop}

section Parts

variable (h : Evaluates context R)
include h

theorem concat {fragments : List Fragment} {expressions : List Expression}
    (heach : List.Forall₂ (fun fragment expression => R fragment [expression]) fragments
      expressions) : R (.concat fragments) expressions := by
  induction heach with
  | nil => exact h.empty
  | cons hfirst _ ih => exact h.append hfirst ih

theorem complainIf {condition : Bool} {complaint : Complaint} {range : Option SourceRange}
    {expressions : List Expression} (hnone : condition = false → expressions = []) :
    R (context.complainIf condition complaint range) expressions := by
  cases condition with
  | true => exact h.complain complaint range expressions
  | false =>
    rw [hnone rfl]
    exact h.empty

/-- Code that may be complained about. -/
theorem checked {condition : Bool} {complaint : Complaint} {range : Option SourceRange}
    {code : Fragment} {expressions : List Expression} (hcode : R code expressions) :
    R (context.complainIf condition complaint range ++ code) expressions :=
  h.append (h.complainIf fun _ => rfl) hcode

theorem made {call : Call} {before : Fragment} {step : Step} {arguments : Nat} {rule : CallRule}
    {range : Option SourceRange} (hrule : CallRule.ofName context.externals call.name = rule)
    (hstep : CallStep context call rule step arguments) (hbefore : R before call.arguments)
    (hfits : Clean before.diagnostics → arguments = call.arguments.length) :
    R (CallCode.toFragment ⟨before, some step⟩ range false) [call.toExpression] :=
  h.append (h.call range (hrule ▸ hstep) hbefore hfits) h.empty

/-- The rule of a call decides which step makes it, and what is complained about. -/
theorem lowerCall (call : Call) {lowered : List Fragment}
    (hlowered : List.Forall₂ (fun fragment expression => R fragment [expression]) lowered
      call.arguments) : R (lowerCall context call lowered false) [call.toExpression] := by
  have harguments := h.concat hlowered
  rw [Compiler.lowerCall]
  cases hrule : CallRule.ofName context.externals call.name with
  | constant command =>
    refine h.made hrule (.constant (CallRule.command_of_constant hrule))
      (h.complainIf fun hempty => by simpa using hempty) fun hclean => ?_
    have hempty : call.arguments = [] := by simpa using Context.eq_false_of_clean hclean
    rw [hempty, List.length_nil]
  | query query =>
    simp only [CallCode.ofRule, CallCode.ofQuery]
    split
    · next name hargument =>
      exact h.append (h.question _ hrule hargument (.target name)) h.empty
    · next name hargument =>
      exact h.append (h.question _ hrule hargument (.reading name)) h.empty
    · exact h.complain _ _ _
  | random =>
    simp only [CallCode.ofRule, CallCode.ofRandom]
    split
    · next least greatest first second hbounds =>
      rw [hbounds] at hlowered
      obtain ⟨hfirst, hrest⟩ := List.forall₂_cons.mp hlowered
      obtain ⟨hsecond, -⟩ := List.forall₂_cons.mp hrest
      refine h.made hrule .random ?_ fun _ => ?_
      · rw [hbounds]
        exact h.append (h.append (h.checked hfirst) (h.complainIf fun _ => rfl)) hsecond
      · rw [hbounds]
        rfl
    · exact h.complain _ _ _
  | seed =>
    simp only [CallCode.ofRule, CallCode.ofSeed]
    split
    · next hseed =>
      refine h.made hrule .seed (h.checked harguments) fun _ => ?_
      rw [hseed]
      rfl
    · exact h.complain _ _ _
  | operator o =>
    refine h.made hrule (.operator o) (h.checked harguments) fun hclean => ?_
    have hfits := Context.eq_false_of_clean (clean_append.mp hclean).1
    simpa using hfits
  | external parameters =>
    exact h.made hrule (.external (CallRule.get?_of_external hrule)) (h.checked harguments)
      fun _ => rfl
  | function => exact h.made hrule .function harguments fun _ => rfl

end Parts

mutual

/-- The code of an expression leaves its value. -/
theorem lower (h : Evaluates context R) : ∀ expression : Expression,
    R (lower context expression) [expression]
  | .int n => h.literal (.int n)
  | .float x => h.literal (.float x)
  | .bool b => h.literal (.bool b)
  | .string text => h.string text
  | .name text => h.name (.reading text)
  | .target text => h.name (.target text)
  | .binary op left right => h.binary op (h.append (h.lower left) (h.lower right))
  | .unary op operand => by
    have hcode := h.unary op (h.lower operand)
    -- A number with a sign is a single value.
    cases op with
    | not => exact hcode
    | negate =>
      cases operand with
      | int n => exact h.literal (.negativeInt n)
      | float x => exact h.literal (.negativeFloat x)
      | _ => exact hcode
  | .call name arguments range => h.lowerCall ⟨name, arguments, range⟩ (h.lowerEach arguments)

theorem lowerEach (h : Evaluates context R) : ∀ expressions : List Expression,
    List.Forall₂ (fun fragment expression => R fragment [expression])
      (lowerEach context expressions) expressions
  | [] => .nil
  | expression :: rest => .cons (h.lower expression) (h.lowerEach rest)

end

end Evaluates

/-! ## Steps -/

/-- A relation between code and the names that it looks up that holds of each step which lowering
makes, and of one piece of code after the other. -/
structure Closed (w : Wording) (externals : Dict Nat) (R : Fragment → List Mention → Prop) :
    Prop where
  silent : ∀ diagnostics, R ⟨[], diagnostics⟩ []
  /-- Nothing has to hold of what is complained about. -/
  complaint : ∀ (complaint : Complaint) (range : Option SourceRange) (mentions : List Mention),
    R (.diagnostic (complaint.toDiagnostic range)) mentions
  append : ∀ {first second : Fragment} {before after : List Mention}, R first before →
    R second after → R (first ++ second) (before ++ after)
  word : ∀ {leaf : Leaf}, Word w externals leaf → ∀ range, R (.ofStep ⟨leaf, range, none⟩) []
  name : ∀ subject : Subject, w.text subject.name → subject.countedBy? = none →
    ∀ location range, R (.ofStep (subject.step location range)) [subject.mention]
  /-- A question about visits is a name and the command that asks. -/
  question : ∀ (subject : Subject) {query : CountQuery}, w.text subject.name →
    subject.countedBy? = some query → ∀ location range,
    R (.ofStep (subject.step location none) ++ .ofStep ⟨.command query.command, range, none⟩)
      [subject.mention]

namespace Closed

variable {w : Wording} {externals : Dict Nat} {context : Context} {own : String → Bool}
  {R : Fragment → List Mention → Prop}

theorem followed (h : Closed w externals R) {first second : Fragment} {mentions : List Mention}
    (hfirst : R first mentions) (hsecond : R second []) : R (first ++ second) mentions := by
  have hboth := h.append hfirst hsecond
  rwa [List.append_nil] at hboth

theorem command (h : Closed w externals R) {c : Command} (hplain : c.isPlain = true) :
    R (.command c) [] :=
  h.word (.command hplain) none

/-- A call looks up what its arguments look up, and then the function if it is one of the story. -/
theorem call (h : Closed w context.externals R) (hown : Knows own context.externals) {call : Call}
    {before : Fragment} {step : Step} {arguments : Nat} (range : Option SourceRange)
    (hstep : CallStep context call (CallRule.ofName context.externals call.name) step arguments)
    (hkeeps : call.toExpression.Keeps w)
    (hbefore : R before (Expression.mentionsEach own call.arguments)) :
    R (before ++ .ofStep { step with range }) (call.toExpression.mentions own) := by
  obtain ⟨hname, hcall, -⟩ := hkeeps
  have hword : ∀ {leaf}, Word w context.externals leaf →
      R (before ++ .ofStep ⟨leaf, range, none⟩) (Expression.mentionsEach own call.arguments ++ []) :=
    fun hleaf => h.append hbefore (h.word hleaf range)
  rw [Call.toExpression, Expression.mentions, hown]
  generalize CallRule.ofName context.externals call.name = rule at hstep
  cases hstep with
  | constant hcommand =>
    refine hword (.command ?_)
    rcases hcommand with rfl | rfl <;> rfl
  | random => exact hword (.command rfl)
  | seed => exact hword (.command rfl)
  | operator o => exact hword (.operator o)
  | external hexternal => exact hword (.external (Option.isSome_of_eq_some hexternal) hcall)
  | function =>
    exact h.append hbefore
      (h.name (.jump call.name .function call.arguments.length) hname rfl context.location range)

theorem evaluates (h : Closed w context.externals R) (hown : Knows own context.externals) :
    Evaluates context fun code expressions => Expression.KeepsEach w expressions →
      R code (Expression.mentionsEach own expressions) where
  empty := fun _ => h.silent []
  append := by
    intro first second before after hfirst hsecond hkeeps
    obtain ⟨hbefore, hafter⟩ := Expression.keepsEach_append.mp hkeeps
    rw [Expression.mentionsEach_append]
    exact h.append (hfirst hbefore) (hsecond hafter)
  complain := fun complaint _ _ _ => h.complaint complaint _ _
  literal := by
    rintro expression value (n | x | b | n | x) ⟨hkeeps, -⟩
    · exact h.word (.int n) none
    · exact h.word (.float hkeeps) none
    · exact h.word (.bool b) none
    · exact h.word (.int (-n)) none
    · exact h.word (.negated hkeeps) none
  string := by
    rintro text ⟨hkeeps, -⟩
    exact h.append (h.append (h.command rfl) (h.word (.string hkeeps) none)) (h.command rfl)
  name := by
    rintro expression subject (name | name) ⟨hkeeps, -⟩
    · exact h.name (.reading name none) hkeeps rfl context.location none
    · exact h.name (.target name none) hkeeps rfl context.location none
  binary := by
    rintro code op left right hcode ⟨⟨hleft, hright⟩, -⟩
    have hboth := hcode ⟨hleft, hright, trivial⟩
    rw [Expression.mentionsEach, Expression.mentionsEach_singleton] at hboth
    rw [Expression.mentionsEach_singleton]
    exact h.followed hboth (h.word (.operator op.operator) none)
  unary := by
    rintro code op operand hcode ⟨hkeeps, -⟩
    have hoperand := hcode ⟨hkeeps, trivial⟩
    rw [Expression.mentionsEach_singleton] at hoperand ⊢
    exact h.followed hoperand (h.word (.operator op.operator) none)
  question := by
    rintro call query expression subject range hrule hargument hnames ⟨hkeeps, -⟩
    obtain ⟨-, -, harguments⟩ := hkeeps
    rw [hargument] at harguments
    have hmentions : Expression.mentionsEach own [call.toExpression] =
        Expression.mentionsEach own [expression] := by
      rw [Expression.mentionsEach_singleton, Call.toExpression, Expression.mentions, hown, hrule,
        hargument]
      exact List.append_nil _
    rw [hmentions]
    cases hnames with
    | reading name =>
      exact h.question (.reading name (some query)) harguments.1 rfl context.location range
    | target name =>
      exact h.question (.target name (some query)) harguments.1 rfl context.location range
  call := by
    rintro call before step arguments range hstep hbefore - ⟨hkeeps, -⟩
    rw [Expression.mentionsEach_singleton]
    exact h.call hown range hstep hkeeps (hbefore hkeeps.2.2)

variable (h : Closed w context.externals R) (hown : Knows own context.externals)
include h hown

theorem lower {expression : Expression} (hkeeps : expression.Keeps w) :
    R (lower context expression) (expression.mentions own) := by
  have hcode := (h.evaluates hown).lower expression ⟨hkeeps, trivial⟩
  rwa [Expression.mentionsEach_singleton] at hcode

theorem lowerEach {expressions : List Expression} (hkeeps : Expression.KeepsEach w expressions) :
    R (.concat (lowerEach context expressions)) (Expression.mentionsEach own expressions) :=
  (h.evaluates hown).concat ((h.evaluates hown).lowerEach expressions) hkeeps

/-- A call whose value nobody uses. -/
theorem lowerCall {call : Call} (hkeeps : call.toExpression.Keeps w) :
    R (lowerCall context call (Compiler.lowerEach context call.arguments) true)
      (call.toExpression.mentions own) := by
  rcases lowerCall_true context call (Compiler.lowerEach context call.arguments) with
    ⟨complaint, range, hcode⟩ | hcode
  · rw [hcode]
    exact h.complaint complaint _ _
  · rw [hcode]
    exact h.followed (h.lower hown hkeeps) (h.command rfl)

end Closed

/-! ## Statements -/

/-- What holds of code because of what holds where it evaluates something. -/
structure Composes (w : Wording) (externals : Dict Nat)
    (inner outer : Fragment → List Mention → Prop) : Prop where
  inside : Closed w externals inner
  outside : Closed w externals outer
  evaluated : ∀ {body : Fragment} {mentions : List Mention}, inner body mentions →
    outer body.evaluated mentions
  located : ∀ {fragment : Fragment} {mentions : List Mention}, outer fragment mentions →
    ∀ range, outer (fragment.located range) mentions

/-- What holds of the commands that start and end evaluation as well holds alike inside and outside
of it. -/
theorem Closed.composes {w : Wording} {externals : Dict Nat} {R : Fragment → List Mention → Prop}
    (h : Closed w externals R) (hstart : R (.command .evalStart) [])
    (hend : R (.command .evalEnd) [])
    (hlocated : ∀ {fragment mentions}, R fragment mentions → ∀ range,
      R (fragment.located range) mentions) : Composes w externals R R where
  inside := h
  outside := h
  evaluated := fun hbody => h.followed (h.append hstart hbody) hend
  located := hlocated

theorem name_of_assignment? {context : Context} {name : String} {isNew : Bool}
    {assignment : Assignment} (h : assignment? context name isNew = some assignment) :
    assignment.name = name := by
  simp only [assignment?] at h
  split_ifs at h <;> cases h <;> rfl

namespace Composes

variable {w : Wording} {context : Context} {own : String → Bool}
  {inner outer : Fragment → List Mention → Prop}

theorem lowerReturn_none (h : Composes w context.externals inner outer) :
    outer (lowerReturn context none) [] :=
  h.outside.append (h.evaluated (h.inside.word .void none)) (h.outside.command rfl)

theorem lowerParameters (h : Composes w context.externals inner outer) {parameters : List String}
    (hkeeps : ∀ parameter ∈ parameters, w.text parameter) :
    outer (lowerParameters parameters) [] := by
  have hreversed : ∀ parameter ∈ parameters.reverse, w.text parameter :=
    fun parameter hmem => hkeeps parameter (List.mem_reverse.mp hmem)
  rw [Compiler.lowerParameters]
  generalize parameters.reverse = names at hreversed
  induction names with
  | nil => exact h.outside.silent []
  | cons first rest ih =>
    obtain ⟨hfirst, hrest⟩ := List.forall_mem_cons.mp hreversed
    exact h.outside.append (h.outside.word (.assignment hfirst) none) (ih hrest)

theorem lowerDivert (h : Composes w context.externals inner outer) {target : String}
    (hkeeps : w.text target) :
    outer (lowerDivert context target) ((Action.divert target).mentions own) := by
  rw [Compiler.lowerDivert, Action.mentions]
  by_cases hdone : target = "DONE"
  · rw [if_pos hdone, if_pos (Or.inl hdone)]
    exact h.outside.command rfl
  · by_cases hend : target = "END"
    · rw [if_neg hdone, if_pos hend, if_pos (Or.inr hend)]
      exact h.outside.command rfl
    · rw [if_neg hdone, if_neg hend, if_neg (not_or.mpr ⟨hdone, hend⟩)]
      exact h.outside.name (.jump target .plain 0) hkeeps rfl context.location none

variable (h : Composes w context.externals inner outer) (hown : Knows own context.externals)
include h hown

theorem lowerReturn {expression : Expression} (hkeeps : expression.Keeps w) :
    outer (lowerReturn context (some expression)) (expression.mentions own) :=
  h.outside.followed (h.evaluated (h.inside.lower hown hkeeps)) (h.outside.command rfl)

theorem lowerTunnel {target : String} {arguments : List Expression}
    (hkeeps : (Action.tunnel target arguments).Keeps w) :
    outer (lowerAction context (.tunnel target arguments))
      ((Action.tunnel target arguments).mentions own) := by
  refine h.outside.append ?_ (h.outside.name (.jump target .tunnel arguments.length) hkeeps.1 rfl
    context.location none)
  have harguments := h.inside.lowerEach hown hkeeps.2
  cases arguments with
  | nil => exact h.outside.silent []
  | cons first rest => exact h.evaluated harguments

/-- The code of a statement. -/
theorem lowerAction {action : Action} (hkeeps : action.Keeps w) :
    outer (lowerAction context action) (action.mentions own) := by
  cases action with
  | text _ => exact h.outside.word (.string hkeeps) none
  | newline => exact h.outside.word .newline none
  | glue => exact h.outside.word .glue none
  | tag _ => exact h.outside.word (.tag hkeeps) none
  | output expression =>
    exact h.evaluated (h.inside.followed (h.inside.lower hown hkeeps) (h.inside.command rfl))
  | call call => exact h.evaluated (h.inside.lowerCall hown hkeeps)
  | divert target => exact h.lowerDivert hkeeps
  | tunnel target arguments => exact h.lowerTunnel hown hkeeps
  | tunnelReturn =>
    exact h.outside.append (h.evaluated (h.inside.word .void none)) (h.outside.command rfl)
  | giveBack value =>
    rw [Compiler.lowerAction]
    split
    · cases value with
      | none => exact h.lowerReturn_none
      | some expression => exact h.lowerReturn hown hkeeps
    · exact h.outside.complaint _ _ _
  | assign name value isNew =>
    rw [Compiler.lowerAction]
    split
    · next assignment hassignment =>
      have hname : w.text assignment.name := by
        rw [name_of_assignment? hassignment]
        exact hkeeps.1
      exact h.outside.followed (h.evaluated (h.inside.lower hown hkeeps.2))
        (h.outside.word (.assignment hname) none)
    · exact h.outside.complaint _ _ _
  | note _ => exact h.outside.silent _
  | done => exact h.outside.command rfl
  | finish => exact h.outside.command rfl

theorem lowerStatements {statements : List Statement}
    (hkeeps : ∀ statement ∈ statements, statement.action.Keeps w) :
    outer (lowerStatements context statements) (Statement.mentionsEach own statements) := by
  induction statements with
  | nil => exact h.outside.silent []
  | cons statement rest ih =>
    obtain ⟨hfirst, hrest⟩ := List.forall_mem_cons.mp hkeeps
    -- A statement is lowered in a context of its own, with the same functions of the host.
    have hinner : Composes w { context with
        location := context.complete statement.range }.externals inner outer := h
    exact h.outside.append (h.located (hinner.lowerAction hown hfirst) _) (ih hrest)

/-! ## Flows and variables -/

/-- The code of a flow. -/
theorem lowerBody (flow : Flow) (hkeeps : flow.Keeps w) :
    outer (lowerBody context flow.parameters flow.body flow.stitches) (flow.mentions own) := by
  obtain ⟨name, kind, parameters, body, stitches, range⟩ := flow
  obtain ⟨-, -, hparameters, hbody, hstitches⟩ := hkeeps
  have hreturn : outer (if context.isFunction && !endsWithReturn body then
      Compiler.lowerReturn context none else .empty) [] := by
    split
    · exact h.lowerReturn_none
    · exact h.outside.silent []
  refine h.outside.followed ?_ hreturn
  have htaken := h.lowerParameters hparameters
  have hstatements := h.lowerStatements hown hbody
  have hcode := h.outside.append (h.outside.append htaken (h.outside.silent [])) hstatements
  cases body with
  | cons first rest => exact hcode
  | nil =>
    cases stitches with
    | nil => exact hcode
    | cons stitch others =>
      obtain ⟨stitchName, _, _, _, _, _⟩ := stitch
      exact h.outside.append (h.outside.append htaken
        (h.outside.name (.jump stitchName .plain 0) hstitches.1.1 rfl context.location none))
        hstatements

theorem lowerGlobals {declarations : List GlobalDeclaration}
    (hkeeps : ∀ declaration ∈ declarations,
      w.text declaration.name ∧ declaration.value.Keeps w) :
    outer (lowerGlobals context declarations)
      (GlobalDeclaration.mentionsEach own declarations) := by
  refine h.outside.followed (h.evaluated ?_) (h.outside.command rfl)
  induction declarations with
  | nil => exact h.inside.silent []
  | cons declaration rest ih =>
    obtain ⟨⟨hname, hvalue⟩, hrest⟩ := List.forall_mem_cons.mp hkeeps
    have hcomplaint : inner (context.complainIf (!isConstant declaration.value)
        (.initialValueNotConstant declaration.name) (context.complete declaration.range)) [] := by
      rw [Context.complainIf]
      split
      · exact h.inside.complaint _ _ _
      · exact h.inside.silent []
    exact h.inside.append (h.inside.followed
      (h.inside.append hcomplaint (h.inside.lower hown hvalue))
      (h.inside.word (.assignment hname) none)) (ih hrest)

end Composes

end Narrative.Compiler
