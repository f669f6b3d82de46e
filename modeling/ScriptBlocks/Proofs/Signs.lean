import ScriptBlocks.Proofs.Hoisting
import ScriptBlocks.Proofs.Numerals

/-!
# Signed literals

A sign is a text that is joined with its operand. A literal under signs therefore evaluates to the
signs followed by the text of the literal, and whether that counts as a number depends on how many
signs there are and on what the text starts with.
-/
namespace ScriptBlocks

variable {signs : List Char} {value : Literal} {x : String}

/-- The signs before a literal, from the outermost on, and the literal. Brackets do not count. -/
def Expr.signed? : Expr → Option (List Char × Literal)
  | .literal value _ => some ([], value)
  | .paren inner _ => inner.signed?
  | .unary .plus _ e _ => e.signed?.map fun s => ('+' :: s.1, s.2)
  | .unary .minus _ e _ => e.signed?.map fun s => ('-' :: s.1, s.2)
  | _ => none

theorem Expr.signed?_signs {e : Expr} (h : e.signed? = some (signs, value)) :
    ∀ c ∈ signs, c = '+' ∨ c = '-' := by
  fun_induction Expr.signed? e generalizing signs value with
  | case1 value span =>
    cases h
    simp
  | case2 inner span ih => exact ih h
  | case3 opSpan e span ih =>
    obtain ⟨⟨signs, value⟩, hs, heq⟩ := Option.map_eq_some_iff.1 h
    cases heq
    exact List.forall_mem_cons.2 ⟨.inl rfl, ih hs⟩
  | case4 opSpan e span ih =>
    obtain ⟨⟨signs, value⟩, hs, heq⟩ := Option.map_eq_some_iff.1 h
    cases heq
    exact List.forall_mem_cons.2 ⟨.inr rfl, ih hs⟩
  | case5 => cases h

/-- The text of a plain value. -/
def Payload.text? : Payload → Option String
  | .number value => some value
  | .color value => some value
  | .text value => some value
  | .variable _ => none

/-- The text of a literal in a slot. -/
def Literal.written : Literal → String
  | .number value => value.toText
  | .text value => value
  | .boolean value => if value then "true" else "false"
  | .color value => value

theorem Literal.payload_text? (value : Literal) : value.payload.text? = some value.written := by
  cases value <;> rfl

/-! ### Evaluation of joins -/

/-- The text to which the content of a slot evaluates: that of a plain value, or those in the slots
of a join one after the other. -/
inductive Target.Evaluates (t : Target) : SlotValue → String → Prop
  | payload {value : Payload} {text : String} : value.text? = some text →
      Evaluates t (.payload value) text
  | join {x : String} {b : Block} {left right : SlotValue} {l r : String} : t.block? x = some b →
      b.opcode = .join → b.slots = [("STRING1", left), ("STRING2", right)] → Evaluates t left l →
      Evaluates t right r → Evaluates t (.block x) (l ++ r)

/-- The content of a slot evaluates to this text and to no other. -/
def Target.HasText (t : Target) (value : SlotValue) (text : String) : Prop :=
  ∀ text', t.Evaluates value text' ↔ text' = text

section

variable {t : Target} {S : String → Prop} {env : Env}

theorem Target.hasText_payload {value : Payload} {text : String} (h : value.text? = some text) :
    t.HasText (.payload value) text := by
  intro text'
  constructor
  · rintro ⟨hvalue⟩
    exact Option.mem_unique hvalue h
  · rintro rfl
    exact .payload h

theorem Target.hasText_join {b : Block} {left right : SlotValue} {l r : String}
    (hx : t.block? x = some b) (hopcode : b.opcode = .join)
    (hslots : b.slots = [("STRING1", left), ("STRING2", right)]) (hl : t.HasText left l)
    (hr : t.HasText right r) : t.HasText (.block x) (l ++ r) := by
  intro text
  constructor
  · rintro (_ | ⟨hx', -, hslots', hl', hr'⟩)
    cases hx.symm.trans hx'
    cases hslots.symm.trans hslots'
    rw [(hl _).1 hl', (hr _).1 hr']
  · rintro rfl
    exact .join hx hopcode hslots ((hl l).2 rfl) ((hr r).2 rfl)

/-- A sign puts its symbol before the text of its operand. -/
theorem Tree.sign_hasText {symbol text : String} {operand : Content} {slot : SlotValue}
    (h : (Content.script [Tree.sign symbol operand]).At t.look S slot)
    (hoperand : ∀ value, operand.At t.look S value → t.HasText value text) :
    t.HasText slot (symbol ++ text) := by
  cases slot with
  | empty => exact h.elim
  | payload => exact h.elim
  | block x =>
    obtain ⟨-, ⟨v, hv, hopcode, -, -, hslots⟩, -⟩ := h
    obtain ⟨b, hb, rfl⟩ := Option.map_eq_some_iff.1 hv
    obtain ⟨left, rest, hvalues, hleft, hslots⟩ := slotsAt_cons hslots
    obtain ⟨right, rest, rfl, hright, hslots⟩ := slotsAt_cons hslots
    obtain rfl := slotsAt_nil hslots
    refine Target.hasText_join hb hopcode hvalues ?_ (hoperand right hright)
    cases left with
    | empty => exact hleft.elim
    | block => exact hleft.elim
    | payload value =>
      obtain rfl : value = .text symbol := hleft
      exact Target.hasText_payload rfl

/-- A literal under signs evaluates to the signs followed by the text of the literal. -/
theorem Expr.signed?_hasText {e : Expr} (h : e.signed? = some (signs, value)) {slot : SlotValue}
    (hat : (env.content e).At t.look S slot) :
    t.HasText slot (String.ofList (signs ++ value.written.toList)) := by
  fun_induction Expr.signed? e generalizing signs value slot with
  | case1 value span =>
    cases h
    cases slot with
    | empty => exact hat.elim
    | block => exact hat.elim
    | payload value' =>
      obtain rfl : value' = value.payload := hat
      simpa using Target.hasText_payload value.payload_text?
  | case2 inner span ih =>
    rw [Env.content] at hat
    exact ih h hat
  | case3 opSpan e span ih | case4 opSpan e span ih =>
    obtain ⟨⟨signs, value⟩, hs, heq⟩ := Option.map_eq_some_iff.1 h
    cases heq
    rw [Env.content] at hat
    rw [List.cons_append, ← List.singleton_append, String.ofList_append]
    exact Tree.sign_hasText hat fun _ => ih hs
  | case5 => cases h

/-- The block that gives a variable a value has one slot, for the value. -/
theorem Env.set_at {name : String} {value : Content} (h : (env.set name value).At t.look S x) :
    ∃ b slot, t.block? x = some b ∧ b.opcode = .setVariable ∧
      b.fields.entries = [("VARIABLE", ⟨(env.ref name).name, some (env.ref name).id⟩)] ∧
      b.slots = [("VALUE", slot)] ∧ value.At t.look S slot := by
  obtain ⟨v, hv, hopcode, hfields, -, hslots⟩ := h
  obtain ⟨b, hb, rfl⟩ := Option.map_eq_some_iff.1 hv
  obtain ⟨slot, rest, hvalues, hslot, hslots⟩ := slotsAt_cons hslots
  obtain rfl := slotsAt_nil hslots
  exact ⟨b, slot, hb, hopcode, hfields, hvalues, hslot⟩

end

/-! ### Signs before a number -/

namespace Literal

def isFinite : Literal → Bool
  | .number value => value.isFinite
  | _ => true

/-- The text of a number has neither a sign nor a blank before its digits. -/
def isBare : Literal → Bool
  | .number value => value.isZero || !value.isNegative
  | .text value => isBareDecimal value
  | _ => false

theorem written_decimal (h : value.type = .number) : isDecimal value.written = value.isFinite ∧
      isBareDecimal value.written = (value.isFinite && value.isBare) := by
  cases value with
  | number x =>
    have hlast : x.toText.toList.rdropWhile Text.isBlank = x.toText.toList :=
      List.rdropWhile_eq_self_iff.2 fun hne => by
        simp [x.toText_not_blank _ (List.getLast_mem hne)]
    refine ⟨x.toText_decimal.1, ?_⟩
    rw [isBareDecimal, written, hlast]
    exact x.toText_decimal.2
  | text value =>
    have hdecimal : isDecimal value = true := by
      simp only [type] at h
      split at h
      next hdecimal => exact hdecimal
      next => cases h
    exact ⟨hdecimal, rfl⟩
  | boolean => cases h
  | color => cases h

theorem signed_decimal_iff (h : value.type = .number) (hsigns : ∀ c ∈ signs, c = '+' ∨ c = '-') :
    isDecimal (String.ofList (signs ++ value.written.toList)) = true ↔
      value.isFinite = true ∧ (signs = [] ∨ signs.length = 1 ∧ value.isBare = true) := by
  obtain ⟨hdecimal, hbare⟩ := written_decimal h
  rw [isDecimal_signed hsigns, hdecimal, hbare, Bool.and_eq_true]
  tauto

end Literal

/-- The variable, the signs and the literal of a declaration by a literal under signs. -/
def Statement.signed? : Statement → Option (String × List Char × Literal)
  | .declare name e _ => e.signed?.map fun s => (name.name, s)
  | _ => none

theorem Statement.exists_of_signed? {s : Statement} (h : s.signed? = some (x, signs, value)) :
    ∃ name e span, s = .declare name e span ∧ name.name = x ∧ e.signed? = some (signs, value) := by
  cases s with
  | declare name e span =>
    obtain ⟨⟨signs, value⟩, he, heq⟩ := Option.map_eq_some_iff.1 h
    cases heq
    exact ⟨name, e, span, rfl, rfl, he⟩
  | _ => cases h

/-- Without errors a declaration by a literal that counts as a number, under any signs and brackets,
gives its variable exactly one text: the signs followed by the text of the literal. The text is a
number exactly if the literal is finite and either has no sign before it, or has one and starts with
neither a sign nor a blank itself. -/
theorem compile_signed {source : String} {program : Program} (sprite : String)
    (hprogram : Program.ofSource source = .ok program)
    (hsuccess : (compile source sprite).success = true) {env : Env} {body : List Statement}
    (hscript : program.HasScript (compile source sprite).current env body) {s : Statement}
    (hs : s ∈ body) {name : String} {signs : List Char} {value : Literal}
    (hsigned : s.signed? = some (name, signs, value)) (hnumber : value.type = .number) :
    let t := (compile source sprite).current
    ∃ x b slot text, t.block? x = some b ∧ b.opcode = .setVariable ∧
      b.fields.entries = [("VARIABLE", ⟨(env.ref name).name, some (env.ref name).id⟩)] ∧
      b.slots = [("VALUE", slot)] ∧ (∀ text', t.Evaluates slot text' ↔ text' = text) ∧
      text = String.ofList (signs ++ value.written.toList) ∧
      (isDecimal text = true ↔
        value.isFinite = true ∧ (signs = [] ∨ signs.length = 1 ∧ value.isBare = true)) := by
  intro t
  obtain ⟨named, e, span, rfl, rfl, he⟩ := Statement.exists_of_signed? hsigned
  obtain ⟨start, hreads⟩ := hscript.script_at hprogram hsuccess
  have htree : env.set named.name (env.content e) ∈ env.script body := by
    obtain ⟨before, rest, hbody⟩ := env.script_of_mem hs
    simp only [hbody, Env.statement, List.mem_append, List.mem_singleton, or_true, true_or]
  obtain ⟨x, hx⟩ := scriptAt_mem hreads htree
  obtain ⟨b, slot, hb, hopcode, hfields, hslots, hslot⟩ := Env.set_at hx
  exact ⟨x, b, slot, _, hb, hopcode, hfields, hslots, Expr.signed?_hasText he hslot, rfl,
    Literal.signed_decimal_iff hnumber (Expr.signed?_signs he)⟩

/-- One sign before a text in brackets, with a blank after its digits. -/
theorem compile_signed_once :
    let source := "let x = -(\"1.5 \")"
    let t := (compile source "Sprite1").current
    (compile source "Sprite1").success = true ∧ ∃ x b slot, t.block? x = some b ∧
      b.opcode = .setVariable ∧ b.slots = [("VALUE", slot)] ∧
      (∀ text, t.Evaluates slot text ↔ text = "-1.5 ") ∧ isDecimal "-1.5 " = true := by
  intro source t
  have hsuccess : (compile source "Sprite1").success = true := by decide +kernel
  obtain ⟨program, hprogram, s, hs, hsigned⟩ : ∃ program ∈ (Program.ofSource source).toOption,
      ∃ s ∈ program.statements, s.signed? = some ("x", ['-'], .text "1.5 ") := by
    decide +kernel
  have hvalue : (Literal.text "1.5 ").type = .number ∧ (Literal.text "1.5 ").isBare = true := by
    decide +kernel
  obtain ⟨x, b, slot, text, hb, hopcode, -, hslots, hevaluates, htext, hdecimal⟩ :=
    compile_signed "Sprite1" (Program.ofSource_eq_ok hprogram) hsuccess (.main (.refl _)) hs hsigned
      hvalue.1
  obtain rfl : text = "-1.5 " := htext.trans (by decide)
  exact ⟨hsuccess, x, b, slot, hb, hopcode, hslots, hevaluates,
    hdecimal.2 ⟨rfl, .inr ⟨rfl, hvalue.2⟩⟩⟩

/-- Two signs before a number do not make a number. -/
theorem compile_signed_twice :
    let project := compile "let x = -(-5)" "Sprite1"
    let t := project.current
    project.success = true ∧ ∃ x b slot, t.block? x = some b ∧ b.opcode = .setVariable ∧
      b.slots = [("VALUE", slot)] ∧ t.Evaluates slot "--5" ∧ isDecimal "--5" = false := by
  intro project t
  obtain ⟨hsuccess, ⟨b, hb, hop, hslots⟩, ⟨outer, houter, hop₁, hslots₁⟩, inner, hinner, hop₂,
      hslots₂⟩ : project.success = true ∧
      (∃ b ∈ t.block? "block_3", b.opcode = .setVariable ∧
        b.slots = [("VALUE", .block "block_4")]) ∧
      (∃ b ∈ t.block? "block_4", b.opcode = .join ∧
        b.slots = [("STRING1", .payload (.text "-")), ("STRING2", .block "block_5")]) ∧
      ∃ b ∈ t.block? "block_5", b.opcode = .join ∧
        b.slots = [("STRING1", .payload (.text "-")), ("STRING2", .payload (.number "5"))] := by
    decide +kernel
  have htext : t.Evaluates (.block "block_5") "-5" :=
    .join hinner hop₂ hslots₂ (.payload rfl) (.payload rfl)
  exact ⟨hsuccess, "block_3", b, .block "block_4", hb, hop, hslots,
    .join houter hop₁ hslots₁ (.payload rfl) htext, by decide⟩

end ScriptBlocks
