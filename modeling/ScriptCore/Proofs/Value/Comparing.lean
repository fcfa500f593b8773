import ScriptCore.Proofs.Numeric.Order
import ScriptCore.Proofs.Value.Joining
import ScriptCore.Value.Operator

/-!
# Comparisons

The comparison operators are one system on every world (`World.comparisons_coherent`): strict equality is an
equivalence that leaves out what is not a number, loose equality is symmetric and contains it, and the four
relations are read off one order, which has no answer exactly when numbers are compared and a side is none.
-/
namespace ScriptCore

namespace Value

variable {a b c : Value}

theorem strictEquals_comm (a b : Value) : a.strictEquals b = b.strictEquals a := by
  cases a <;> cases b <;> simp [strictEquals, BEq.comm]

theorem strictEquals_trans (h : a.strictEquals b = true) (h' : b.strictEquals c = true) :
    a.strictEquals c = true := by
  cases a <;> cases b <;> simp only [strictEquals, Bool.false_eq_true] at h <;>
    cases c <;> simp_all only [strictEquals, Bool.false_eq_true, beq_iff_eq]
  exact BEq.trans h h'

/-- Only what is not a number differs from itself. -/
theorem strictEquals_self (a : Value) : a.strictEquals a = false ↔ ∃ x, a = .number x ∧ x.isNaN = true := by
  cases a <;> simp [strictEquals, Numeric.beq_self]

end Value

namespace World

variable {w : World} {a b : Value} {s t : String} {answer : Bool}

/-! ## The forms that are compared -/

theorem primitive_of_composite (h : a.isComposite = true) : w.primitive a = .str (w.text a) := by
  simp [primitive, h]

theorem primitive_of_plain (h : a.isComposite = false) : w.primitive a = a := by
  simp [primitive, h]

theorem number_of_composite (h : a.isComposite = true) : w.number a = w.number (.str (w.text a)) := by
  cases a <;> simp_all [Value.isComposite, number]

theorem number_primitive (a : Value) : w.number (w.primitive a) = w.number a := by
  cases h : a.isComposite with
  | true => rw [primitive_of_composite h, number_of_composite h]
  | false => rw [primitive_of_plain h]

/-- The text of a composite follows the paths down its arrays. -/
theorem joins_text (h : a.isComposite = true) : w.Joins [] a (w.text a) := by
  cases a with
  | array id => exact joins_joined (by simp) (card_unopened_le _ _) (.array id)
  | object | closure | native => exact .plain rfl (fun _ h => nomatch h)
  | _ => cases h

/-! ## Loose equality -/

/-- Loose equality, rule by rule: a composite beside a value that is none is compared by its text. -/
inductive LooselyEqual (w : World) : Value → Value → Bool → Prop
  | nullish {a b : Value} (h : (a.isNullish || b.isNullish) = true) :
    LooselyEqual w a b (a.isNullish && b.isNullish)
  | identity {a b : Value} (ha : a.isComposite = true) (hb : b.isComposite = true) :
    LooselyEqual w a b (a.strictEquals b)
  | texts {s t : String} : LooselyEqual w (.str s) (.str t) (s == t)
  | left {a b : Value} {answer : Bool} (ha : a.isComposite = true) (hb : b.isComposite = false)
    (hnullish : b.isNullish = false) (h : LooselyEqual w (.str (w.text a)) b answer) : LooselyEqual w a b answer
  | right {a b : Value} {answer : Bool} (ha : a.isComposite = false) (hb : b.isComposite = true)
    (hnullish : a.isNullish = false) (h : LooselyEqual w (.str (w.text b)) a answer) : LooselyEqual w a b answer
  | numbers {a b : Value} (ha : a.isComposite = false) (hb : b.isComposite = false)
    (hnullish : (a.isNullish || b.isNullish) = false) (htexts : ∀ s t, ¬(a = .str s ∧ b = .str t)) :
    LooselyEqual w a b (w.number a == w.number b)

theorem looseEquals_comm (w : World) (a b : Value) : w.looseEquals a b = w.looseEquals b a := by
  unfold looseEquals
  simp only [Bool.or_comm b.isNullish, Bool.and_comm b.isNullish, Bool.and_comm b.isComposite,
    Value.strictEquals_comm b a]
  split
  · rfl
  · split
    · rfl
    · cases w.primitive a <;> cases w.primitive b <;> simp [BEq.comm]

theorem looseEquals_of_strictEquals (h : a.strictEquals b = true) : w.looseEquals a b = true := by
  have hflag : ∀ flag : Bool, (Numeric.ofNat (if flag = true then 1 else 0)).isNaN = false := by decide +kernel
  cases a <;> cases b <;>
    simp_all only [Value.strictEquals, looseEquals, Value.isNullish, Value.isComposite, primitive, number,
      Numeric.beq_self, Bool.or_self, Bool.and_self, Bool.false_eq_true, if_false, if_true, beq_iff_eq,
      Bool.not_false]

/-- Beside a value that is none, a composite counts as its text. -/
theorem looseEquals_text (ha : a.isComposite = true) (hb : b.isComposite = false) :
    w.looseEquals (.str (w.text a)) b = w.looseEquals a b := by
  have hnullish : a.isNullish = false := by cases a <;> simp_all [Value.isComposite, Value.isNullish]
  have hform : w.primitive (.str (w.text a)) = .str (w.text a) := primitive_of_plain rfl
  have htext : (Value.str (w.text a)).isNullish = false := rfl
  simp [looseEquals, primitive_of_composite ha, hform, hnullish, htext, hb]

theorem looselyEqual_of_plain (ha : a.isComposite = false) (hb : b.isComposite = false) :
    w.LooselyEqual a b (w.looseEquals a b) := by
  unfold looseEquals
  rw [primitive_of_plain ha, primitive_of_plain hb, ha, Bool.false_and, if_neg Bool.false_ne_true]
  split
  next hnullish => exact .nullish hnullish
  next hnullish =>
    split
    next s t => exact .texts
    next htexts =>
      exact .numbers ha hb (Bool.eq_false_iff.mpr hnullish) fun s t h => htexts s t h.1 h.2

/-- The rules decide loose equality of any two values. -/
theorem looselyEqual_iff : w.LooselyEqual a b answer ↔ w.looseEquals a b = answer := by
  constructor
  · intro h
    induction h with
    | nullish h => simp [looseEquals, h]
    | @identity a b ha hb =>
      cases a <;> cases b <;> simp_all [looseEquals, Value.isComposite, Value.isNullish]
    | texts => simp [looseEquals, Value.isNullish, Value.isComposite, primitive]
    | left ha hb _ _ ih => rw [← looseEquals_text ha hb, ih]
    | right ha hb _ _ ih => rw [looseEquals_comm, ← looseEquals_text hb ha, ih]
    | numbers ha hb hnullish htexts =>
      unfold looseEquals
      rw [primitive_of_plain ha, primitive_of_plain hb, hnullish, ha, Bool.false_and,
        if_neg Bool.false_ne_true, if_neg Bool.false_ne_true]
      split
      · exact absurd ⟨rfl, rfl⟩ (htexts _ _)
      · rfl
  · rintro rfl
    cases hnullish : a.isNullish || b.isNullish with
    | true => simpa [looseEquals, hnullish] using LooselyEqual.nullish hnullish
    | false =>
      obtain ⟨hleft, hright⟩ := Bool.or_eq_false_iff.mp hnullish
      cases ha : a.isComposite <;> cases hb : b.isComposite
      case false.false => exact looselyEqual_of_plain ha hb
      case false.true =>
        refine .right ha hb hleft ?_
        rw [looseEquals_comm, ← looseEquals_text hb ha]
        exact looselyEqual_of_plain rfl ha
      case true.false =>
        refine .left ha hb hright ?_
        rw [← looseEquals_text ha hb]
        exact looselyEqual_of_plain rfl hb
      case true.true => simpa [looseEquals, hnullish, ha, hb] using LooselyEqual.identity ha hb

/-! ## Relations -/

theorem compareNumbers_eq_order (x y : Float) : compareNumbers x y = Numeric.order x y := by
  unfold compareNumbers
  simp only [Numeric.lt_iff_order, Numeric.beq_iff_order, Numeric.order_swap x y]
  cases Numeric.order x y with
  | none => simp
  | some o => cases o <;> simp

theorem compareTexts_swap (s t : String) :
    (if t < s then Ordering.lt else if s < t then .gt else .eq) =
      (if s < t then Ordering.lt else if t < s then .gt else .eq).swap := by
  by_cases h : s < t
  · simp [h, String.lt_asymm h]
  · by_cases h' : t < s <;> simp [h, h']

/-- Seen from the other side, the order of two values is turned round. -/
theorem compare?_swap (w : World) (a b : Value) : w.compare? b a = (w.compare? a b).map Ordering.swap := by
  unfold compare?
  cases w.primitive a <;> cases w.primitive b <;>
    simp only [Option.map_some, ← compareTexts_swap, compareNumbers_eq_order, ← Numeric.order_swap]

/-- A composite has the order of its text. -/
theorem compare?_text (ha : a.isComposite = true) (b : Value) :
    w.compare? (.str (w.text a)) b = w.compare? a b := by
  have hform : w.primitive (.str (w.text a)) = w.primitive a := by
    rw [primitive_of_composite ha, primitive_of_plain rfl]
  unfold compare?
  rw [hform]

/-- Two values are compared as numbers, and one of them is not a number. -/
def Unordered (w : World) (a b : Value) : Prop :=
  ¬(∃ s t, w.primitive a = .str s ∧ w.primitive b = .str t) ∧
    ((w.number a).isNaN = true ∨ (w.number b).isNaN = true)

theorem compare?_eq_none : w.compare? a b = none ↔ w.Unordered a b := by
  unfold compare? Unordered
  split
  next s t ha hb => simp [ha, hb]
  next htexts =>
    have hnumbers : ¬∃ s t, w.primitive a = .str s ∧ w.primitive b = .str t :=
      fun ⟨s, t, ha, hb⟩ => htexts s t ha hb
    simp only [compareNumbers_eq_order, Numeric.order_eq_none, number_primitive, hnumbers, not_false_eq_true,
      true_and]

/-! ## The operators -/

/-- What a comparison operator answers on two values. -/
def answer? (w : World) (op : String) (a b : Value) : Option Bool :=
  match w.binary op a b with
  | .ok (.bool answer) => some answer
  | _ => none

/-- The operators that compare by order. -/
def relations : List String := ["<", ">", "<=", ">="]

/-- The comparison operators are one coherent system. -/
structure Coherent (w : World) : Prop where
  strict : ∀ a b, w.answer? "===" a b = some (a.strictEquals b)
  loose : ∀ a b, w.answer? "==" a b = some (w.looseEquals a b)
  strict_symm : ∀ a b : Value, a.strictEquals b = b.strictEquals a
  strict_trans : ∀ a b c : Value, a.strictEquals b = true → b.strictEquals c = true → a.strictEquals c = true
  strict_refl : ∀ a : Value, a.strictEquals a = false ↔ ∃ x, a = .number x ∧ x.isNaN = true
  loose_symm : ∀ a b, w.looseEquals a b = w.looseEquals b a
  loose_of_strict : ∀ a b : Value, a.strictEquals b = true → w.looseEquals a b = true
  /-- The rules of loose equality end in exactly one answer. -/
  loose_ends : ∀ a b answer, w.LooselyEqual a b answer ↔ w.looseEquals a b = answer
  strict_negated : ∀ a b, w.answer? "!==" a b = (w.answer? "===" a b).map not
  loose_negated : ∀ a b, w.answer? "!=" a b = (w.answer? "==" a b).map not
  less_mirrored : ∀ a b, w.answer? "<" a b = w.answer? ">" b a
  atMost_mirrored : ∀ a b, w.answer? "<=" a b = w.answer? ">=" b a
  /-- Of less, greater and neither, exactly one holds, unless a side counts as not a number. -/
  trichotomy : ∀ a b, ¬w.Unordered a b → ∃ less greater atMost atLeast,
    w.answer? "<" a b = some less ∧ w.answer? ">" a b = some greater ∧
    w.answer? "<=" a b = some atMost ∧ w.answer? ">=" a b = some atLeast ∧
    [less, greater, atMost && atLeast].count true = 1
  unordered : ∀ a b, w.Unordered a b → ∀ op ∈ relations, w.answer? op a b = some false
  /-- The text of a composite is written down its paths and may stand for it on either side. -/
  by_text : ∀ a, a.isComposite = true → w.Joins [] a (w.text a) ∧ ∀ b, ∀ op ∈ relations,
    w.answer? op (.str (w.text a)) b = w.answer? op a b ∧
    w.answer? op b (.str (w.text a)) = w.answer? op b a

theorem answer?_relation {op : String} (h : op ∈ relations) (a b : Value) :
    w.answer? op a b = some ((w.compare? a b).any fun o =>
      if op = "<" then o.isLT else if op = ">" then o.isGT else if op = "<=" then o.isLE else o.isGE) := by
  simp only [relations, List.mem_cons, List.not_mem_nil, or_false] at h
  rcases h with rfl | rfl | rfl | rfl <;> rfl

/-- **Comparisons are coherent** on every world. -/
theorem comparisons_coherent (w : World) : w.Coherent where
  strict a b := rfl
  loose a b := rfl
  strict_symm := Value.strictEquals_comm
  strict_trans a b c := Value.strictEquals_trans
  strict_refl := Value.strictEquals_self
  loose_symm := looseEquals_comm w
  loose_of_strict a b := looseEquals_of_strictEquals
  loose_ends a b answer := looselyEqual_iff
  strict_negated a b := rfl
  loose_negated a b := rfl
  less_mirrored a b := by
    simp only [answer?, binary, compare?_swap w a b]
    cases w.compare? a b with
    | none => rfl
    | some o => cases o <;> rfl
  atMost_mirrored a b := by
    simp only [answer?, binary, compare?_swap w a b]
    cases w.compare? a b with
    | none => rfl
    | some o => cases o <;> rfl
  trichotomy a b h := by
    obtain ⟨o, ho⟩ := Option.ne_none_iff_exists'.mp (mt compare?_eq_none.mp h)
    refine ⟨o.isLT, o.isGT, o.isLE, o.isGE, ?_⟩
    simp only [answer?, binary, ho, Option.any_some, true_and]
    cases o <;> rfl
  unordered a b h op hop := by
    rw [answer?_relation hop, compare?_eq_none.mpr h]
    rfl
  by_text a ha := by
    refine ⟨joins_text ha, fun b op hop => ⟨?_, ?_⟩⟩
    · rw [answer?_relation hop, answer?_relation hop, compare?_text ha]
    · rw [answer?_relation hop, answer?_relation hop, compare?_swap w (.str _) b, compare?_text ha,
        ← compare?_swap]

end World

end ScriptCore
