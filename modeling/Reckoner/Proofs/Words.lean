import Reckoner.Proofs.Grammar
import Reckoner.Proofs.Reading
import Reckoner.Proofs.Recursion

/-! How words are read: digits and spaces as far as they go, and numbers with the value of all their digits. -/

namespace Reckoner.Arithmetic
open Reckoner.Parser Reckoner.Arithmetic.Derivation
open scoped Computability

variable {ι : Type} {τ : ι → Type} {text : List Char} {depth : Nat} {env : Environment τ}

/-! ### Digits -/

theorem mem_digitTexts {d : String} : d ∈ digitTexts ↔ ∃ c : Char, c.isDigit = true ∧ d = String.singleton c := by
  constructor
  · intro hd
    have hall : ∀ d ∈ digitTexts, ∃ n ∈ List.range' 48 10,
        (Char.ofNat n).isDigit = true ∧ d = String.singleton (Char.ofNat n) := by decide
    obtain ⟨n, -, hn⟩ := hall d hd
    exact ⟨Char.ofNat n, hn⟩
  · rintro ⟨c, hc, rfl⟩
    obtain ⟨hlow, hhigh⟩ := Char.isDigit_iff_toNat.mp hc
    have hof : Char.ofNat c.toNat = c := Char.ofNat_toNat c
    have hrange : c.toNat ∈ List.range' 48 10 := List.mem_range'_1.mpr ⟨hlow, Nat.lt_succ_of_le hhigh⟩
    have hall : ∀ n ∈ List.range' 48 10, String.singleton (Char.ofNat n) ∈ digitTexts := by decide
    rw [← hof]
    exact hall _ hrange

theorem reads_digit {c : Char} {u : List Char} (hc : c.isDigit = true) :
    Reads text depth env digit (c :: u) (some (String.singleton c, u)) := by
  have hc' : String.singleton c ∈ digitTexts := mem_digitTexts.mpr ⟨c, hc, rfl⟩
  have hsome : Reads text depth env (.literal (String.singleton c)) (c :: u) (some (String.singleton c, u)) :=
    Reads.char (String.toList_singleton c)
  refine Reads.label "digit" (Reads.any_some (List.mem_map_of_mem hc') hsome fun p hp => ?_)
  obtain ⟨d, hd, rfl⟩ := List.mem_map.mp hp
  obtain ⟨c', -, rfl⟩ := mem_digitTexts.mp hd
  by_cases hcc : c = c'
  · exact Or.inr (hcc ▸ hsome)
  · exact Or.inl (Reads.char_none (String.toList_singleton c') (by simpa using hcc))

theorem reads_digit_none {w : List Char} (hw : ∀ c, w.head? = some c → c.isDigit = false) :
    Reads text depth env digit w none := by
  refine Reads.label "digit" (Reads.any_none fun p hp => ?_)
  obtain ⟨d, hd, rfl⟩ := List.mem_map.mp hp
  obtain ⟨c, hc, rfl⟩ := mem_digitTexts.mp hd
  refine Reads.char_none (String.toList_singleton c) fun hhead => ?_
  rw [hw c hhead] at hc
  cases hc

theorem recognizes_digit (w : List Char) : Recognizes text depth env digit Rule.digit.language w := by
  refine Recognizes.label "digit" (Recognizes.any fun p hp => ?_)
  obtain ⟨d, hd, rfl⟩ := List.mem_map.mp hp
  obtain ⟨c, hc, rfl⟩ := mem_digitTexts.mp hd
  refine (Recognizes.literal (String.singleton c)).mono ?_
  rintro x rfl
  exact ⟨c, hc, String.toList_singleton c⟩

/-- The digits of a number, each read for itself, are read as the number. -/
theorem read?_digits (n : Numeral) : Decimal.read? (String.join (n.digits.map String.singleton)) = some n.value := by
  have hjoin : (String.join (n.digits.map String.singleton)).toList = n.digits := by
    rw [String.toList_join, List.flatMap_map]
    simp
  unfold Decimal.read?
  rw [hjoin]
  exact if_pos ⟨n.nonempty, n.all_digits⟩

/-! ### Repetitions -/

section
variable (hdepth : Text.byteLength text < depth)
include hdepth

theorem reads_digits {digits u : List Char} (hdigits : digits.all Char.isDigit = true)
    (hu : ∀ c, u.head? = some c → c.isDigit = false) :
    Reads text depth env digit.many (digits ++ u) (some (digits.map String.singleton, u)) := by
  have hends : ∀ s, exec text depth digit.many env s ≠ .halted .tooDeep := (steady_digits hdepth).ne_tooDeep
  induction digits with
  | nil => exact Reads.many_nil hends (reads_digit_none hu)
  | cons c digits ih =>
    rw [List.all_cons, Bool.and_eq_true] at hdigits
    exact Reads.many_cons hends (reads_digit hdigits.1) (ih hdigits.2)

theorem reads_blanks (n : Nat) {u : List Char} (hu : u.head? ≠ some ' ') :
    Reads text depth env (Parser.literal " ").many (blanks n ++ u) (some (List.replicate n " ", u)) := by
  have hends : ∀ s, exec text depth (Parser.literal " ").many env s ≠ .halted .tooDeep :=
    (steady_blanks hdepth).ne_tooDeep
  induction n with
  | zero => exact Reads.many_nil hends (Reads.char_none rfl hu)
  | succ n ih => exact Reads.many_cons hends (Reads.char rfl) ih

theorem reads_spaces (n : Nat) {u : List Char} (hu : u.head? ≠ some ' ') :
    Reads text depth env spaces (blanks n ++ u) (some (String.join (List.replicate n " "), u)) :=
  (reads_blanks hdepth n hu).map String.join

theorem reads_number (n : Numeral) {u : List Char} (hu : ∀ c, u.head? = some c → c.isDigit = false) :
    Reads text depth env number (n.digits ++ u) (some (n.value, u)) := by
  have hread := read?_digits n
  obtain ⟨digits, hne, hdigits⟩ := n
  obtain ⟨c, rest, rfl⟩ := List.exists_cons_of_ne_nil hne
  have hall := hdigits
  rw [List.all_cons, Bool.and_eq_true] at hall
  have hmany : Reads text depth env (digit.many1.map String.join) (c :: rest ++ u)
      (some (String.join ((c :: rest).map String.singleton), u)) :=
    ((reads_digit hall.1).cons (reads_digits hdepth hall.2 hu)).map String.join
  refine (hmany.chain ?_).label "number"
  rw [hread]
  exact Reads.pure _

theorem recognizes_spaces (w : List Char) : Recognizes text depth env spaces Rule.spaces.language w := by
  have hne : [] ∉ ({[' ']} : Language Char) := fun h => List.cons_ne_nil _ _ h.symm
  have hblank : Recognizes text depth env (Parser.literal " ").many ({[' ']} : Language Char)∗ w :=
    Recognizes.many (steady_blanks hdepth).ne_tooDeep (fun _ => Recognizes.literal " ") hne w
  refine (hblank.map String.join).mono (kstar_le_of_append ⟨0, rfl⟩ ?_)
  rintro _ ⟨n, rfl⟩ _ rfl
  exact ⟨n + 1, List.replicate_succ'.symm⟩

theorem recognizes_number (w : List Char) : Recognizes text depth env number Rule.number.language w := by
  have hmany : Recognizes text depth env (digit.many1.map String.join)
      (Rule.digit.language * Rule.digit.language∗) w := by
    refine Recognizes.map _ (Recognizes.map _ ((recognizes_digit w).seq fun x u _ _ => ?_))
    exact Recognizes.many (steady_digits hdepth).ne_tooDeep recognizes_digit (by rintro ⟨c, -, hc⟩; cases hc) u
  have hvalue : Recognizes text depth env number (Rule.digit.language * Rule.digit.language∗ * 1) w := by
    refine (hmany.chain fun digits x u _ _ => ?_).label "number"
    cases Decimal.read? digits with
    | some value => exact Recognizes.pure value
    | none => exact ⟨none, Reads.fail, fun a ha => by cases ha⟩
  have hdigits : Rule.digit.language∗ ≤ ({x | x.all Char.isDigit = true} : Language Char) := by
    refine kstar_le_of_append rfl ?_
    rintro x hx _ ⟨c, hc, rfl⟩
    show (x ++ [c]).all Char.isDigit = true
    rw [List.all_append, hx]
    simp [hc]
  rw [mul_one] at hvalue
  refine hvalue.mono fun x hx => ?_
  obtain ⟨_, ⟨c, hc, rfl⟩, y, hy, rfl⟩ := Language.mem_mul.mp hx
  have hy' : y.all Char.isDigit = true := hdigits hy
  exact ⟨⟨c :: y, by simp, by rw [List.all_cons, hc, hy']; rfl⟩, rfl⟩

end

end Reckoner.Arithmetic
