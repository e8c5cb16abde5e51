import Relational.Term.Text
import Mathlib.Data.List.TakeWhile
import Mathlib.Order.Basic

/-!
# Texts of terms are unambiguous

A text is made of words, spaces and parentheses. The empty list and a pair open with a parenthesis, any other
term is a single word, and behind the first item of a list the next characters tell whether it ends, goes on
or has a tail. So a text tells the shape of its term before it is read to the end, and where each part stops.
-/

namespace Relational

/-! ## Plain terms -/

/-- The atom is no float, and if it is a symbol its name is a word of letters. -/
def Atom.Plain : Atom → Prop
  | .float _ => False
  | .sym name => name ≠ "" ∧ ∀ c ∈ name.toList, c.isAlpha
  | _ => True

instance (a : Atom) : Decidable a.Plain :=
  match a with
  | .float _ => .isFalse id
  | .sym name => decidable_of_iff (name ≠ "" ∧ name.toList.all Char.isAlpha) (by simp [Atom.Plain])
  | .nil | .bool _ | .int _ | .reified _ => .isTrue trivial

namespace Term

/-- All atoms of the term are plain. -/
def Plain : Term Var → Prop
  | .atom a => a.Plain
  | .var _ => True
  | .pair a d => a.Plain ∧ d.Plain

instance decidablePlain : (t : Term Var) → Decidable t.Plain
  | .atom a => inferInstanceAs (Decidable a.Plain)
  | .var _ => .isTrue trivial
  | .pair a d =>
    have := decidablePlain a
    have := decidablePlain d
    inferInstanceAs (Decidable (a.Plain ∧ d.Plain))

end Term

/-! ## Words -/

/-- Can the character be part of a word? -/
def inWord (c : Char) : Bool := c != ' ' && c != '(' && c != ')'

/-- The characters are a word. A lone dot is none: it announces a tail. -/
structure IsWord (w : List Char) : Prop where
  ne_nil : w ≠ []
  forall_inWord : ∀ c ∈ w, inWord c
  head_ne_dot : ∀ c ∈ w.head?, c ≠ '.'

/-- A word that stands before these characters does not go on in them. -/
def EndsWord (r : List Char) : Prop := ∀ c ∈ r.head?, inWord c = false

theorem takeWhile_inWord {w r : List Char} (hw : IsWord w) (hr : EndsWord r) :
    (w ++ r).takeWhile inWord = w := by
  rw [List.takeWhile_append_of_pos hw.forall_inWord]
  cases r with
  | nil => rw [List.takeWhile_nil, List.append_nil]
  | cons c r => rw [List.takeWhile_cons_of_neg (by simp [hr c rfl]), List.append_nil]

theorem word_append_inj {v w r s : List Char} (hv : IsWord v) (hw : IsWord w) (hr : EndsWord r)
    (hs : EndsWord s) (h : v ++ r = w ++ s) : v = w ∧ r = s := by
  have hvw : v = w := by rw [← takeWhile_inWord hv hr, h, takeWhile_inWord hw hs]
  subst hvw
  exact ⟨rfl, List.append_cancel_left h⟩

/-! ## Digits and letters -/

theorem ne_of_eq_false {p : Char → Bool} {c d : Char} (hc : p c) (hd : p d = false) : c ≠ d :=
  ne_of_apply_ne p (by simp [hc, hd])

theorem isDigit_of_isAlpha {c : Char} (hc : c.isAlpha) : c.isDigit = false := by
  change (decide ('A'.val ≤ c.val ∧ c.val ≤ 'Z'.val) ||
    decide ('a'.val ≤ c.val) && decide (c.val ≤ 'z'.val)) = true at hc
  simp only [Bool.or_eq_true, Bool.and_eq_true, decide_eq_true_eq, UInt32.le_iff_toNat_le] at hc
  have hupper : 'A'.val.toNat = 65 := rfl
  have hlower : 'a'.val.toNat = 97 := rfl
  have hnine : '9'.val.toNat = 57 := rfl
  simp only [Char.isDigit, Bool.and_eq_false_iff, decide_eq_false_iff_not, ge_iff_le, UInt32.le_iff_toNat_le]
  omega

theorem inWord_of_isDigit {c : Char} (hc : c.isDigit) : inWord c := by
  simp [inWord, ne_of_eq_false hc]

theorem inWord_of_isAlpha {c : Char} (hc : c.isAlpha) : inWord c := by
  simp [inWord, ne_of_eq_false hc]

theorem isDigit_of_mem_digits {n : Nat} {c : Char} (hc : c ∈ Nat.toDigits 10 n) : c.isDigit :=
  Nat.isDigit_of_mem_toDigits (by decide) (by decide) hc

theorem exists_digits_eq_cons (n : Nat) : ∃ c cs, Nat.toDigits 10 n = c :: cs ∧ c.isDigit := by
  obtain ⟨c, cs, h⟩ := List.exists_cons_of_ne_nil (Nat.toDigits_ne_nil (n := n) (b := 10))
  exact ⟨c, cs, h, isDigit_of_mem_digits (n := n) (h ▸ List.mem_cons_self)⟩

theorem exists_name_eq_cons {name : String} (h : (Atom.sym name).Plain) :
    ∃ c cs, name.toList = c :: cs ∧ c.isAlpha := by
  obtain ⟨hname, hletters⟩ := h
  obtain ⟨c, cs, h⟩ := List.exists_cons_of_ne_nil (l := name.toList) (by simpa using hname)
  exact ⟨c, cs, h, hletters c (h ▸ List.mem_cons_self)⟩

/-! ## Reading words -/

/-- The term whose text a word is, told by its first character. -/
def readWord : List Char → Term Var
  | [] => .nil
  | c :: cs =>
    if c = '#' then .bool (cs == ['t'])
    else if c = '_' then .reified (Nat.ofDigitChars 10 cs.tail 0)
    else if c = '?' then .var ⟨Nat.ofDigitChars 10 cs 0⟩
    else if c = '-' then .int (-Nat.ofDigitChars 10 cs 0)
    else if c.isDigit then .int (Nat.ofDigitChars 10 (c :: cs) 0)
    else .sym (String.ofList (c :: cs))

theorem readWord_digits (n : Nat) : readWord (Nat.toDigits 10 n) = .int n := by
  obtain ⟨c, cs, hcs, hc⟩ := exists_digits_eq_cons n
  have hne (d : Char) (hd : d.isDigit = false) : c ≠ d := ne_of_eq_false hc hd
  rw [hcs, readWord, ← hcs, Nat.ofDigitChars_ten_toDigits]
  simp [hne, hc]

theorem readWord_minus (n : Nat) : readWord ('-' :: Nat.toDigits 10 n) = .int (-n) := by
  simp [readWord]

theorem readWord_underscore (k : Nat) : readWord ('_' :: '.' :: Nat.toDigits 10 k) = .reified k := by
  simp [readWord]

theorem readWord_question (x : Var) : readWord ('?' :: Nat.toDigits 10 x.id) = .var x := by
  simp [readWord]

theorem readWord_name {name : String} (h : (Atom.sym name).Plain) : readWord name.toList = .sym name := by
  obtain ⟨c, cs, hcs, hc⟩ := exists_name_eq_cons h
  have hne (d : Char) (hd : d.isAlpha = false) : c ≠ d := ne_of_eq_false hc hd
  rw [hcs, readWord, ← hcs, String.ofList_toList]
  simp [hne, isDigit_of_isAlpha hc]

namespace IsWord

theorem exists_cons {w : List Char} (h : IsWord w) :
    ∃ c cs, w = c :: cs ∧ c ≠ '(' ∧ c ≠ ')' ∧ c ≠ '.' := by
  obtain ⟨c, cs, rfl⟩ := List.exists_cons_of_ne_nil h.ne_nil
  have hc : inWord c := h.forall_inWord c List.mem_cons_self
  simp only [inWord, Bool.and_eq_true, bne_iff_ne] at hc
  exact ⟨c, cs, rfl, hc.1.2, hc.2, h.head_ne_dot c rfl⟩

theorem of_cons {c : Char} {cs : List Char} (hc : inWord c) (hdot : c ≠ '.')
    (hcs : ∀ c ∈ cs, inWord c) : IsWord (c :: cs) where
  ne_nil := List.cons_ne_nil c cs
  forall_inWord := List.forall_mem_cons.2 ⟨hc, hcs⟩
  head_ne_dot := by simpa using hdot

theorem of_digits {c : Char} (hc : inWord c) (hdot : c ≠ '.') (n : Nat) :
    IsWord (c :: Nat.toDigits 10 n) :=
  of_cons hc hdot fun _ hd => inWord_of_isDigit (isDigit_of_mem_digits hd)

theorem digits (n : Nat) : IsWord (Nat.toDigits 10 n) := by
  obtain ⟨c, cs, hcs, hc⟩ := exists_digits_eq_cons n
  rw [hcs]
  refine of_cons (inWord_of_isDigit hc) (ne_of_eq_false hc rfl) fun d hd => inWord_of_isDigit ?_
  exact isDigit_of_mem_digits (n := n) (hcs ▸ List.mem_cons_of_mem c hd)

theorem name {name : String} (h : (Atom.sym name).Plain) : IsWord name.toList := by
  obtain ⟨c, cs, hcs, hc⟩ := exists_name_eq_cons h
  rw [hcs]
  refine of_cons (inWord_of_isAlpha hc) (ne_of_eq_false hc rfl) fun d hd => inWord_of_isAlpha ?_
  exact h.2 d (hcs ▸ List.mem_cons_of_mem c hd)

end IsWord

/-! ## Shapes -/

/-- What the text of a term looks like. -/
inductive Shape where
  | empty
  | word
  | pair

namespace Shape

/-- The shape of a term whose text begins with these characters. -/
def ofText : List Char → Shape
  | '(' :: ')' :: _ => .empty
  | '(' :: _ => .pair
  | _ => .word

/-- The shape of a term that stands behind the first item of a list, where the list goes on with these
characters. -/
def ofTail : List Char → Shape
  | ')' :: _ => .empty
  | ' ' :: '.' :: _ => .word
  | _ => .pair

end Shape

namespace Term

/-- The shape of a term. -/
def shape : Term Var → Shape
  | .atom .nil => .empty
  | .pair _ _ => .pair
  | _ => .word

@[elab_as_elim] theorem shape_induction {motive : Term Var → Prop} (empty : motive nil)
    (word : ∀ t, t.shape = .word → motive t) (pair : ∀ a d, motive a → motive d → motive (.pair a d))
    (t : Term Var) : motive t := by
  induction t with
  | atom a =>
    cases a with
    | nil => exact empty
    | _ => exact word _ rfl
  | var x => exact word _ rfl
  | pair a d iha ihd => exact pair a d iha ihd

variable {t u : Term Var} {r s : List Char}

theorem eq_nil_of_shape (h : t.shape = .empty) : t = nil := by
  cases t using shape_induction with
  | empty => rfl
  | word t ht => cases ht.symm.trans h
  | pair => cases h

theorem exists_eq_pair_of_shape (h : t.shape = .pair) : ∃ a d, t = .pair a d := by
  cases t using shape_induction with
  | empty => cases h
  | word t ht => cases ht.symm.trans h
  | pair a d => exact ⟨a, d, rfl⟩

theorem isWord_chars (ht : t.Plain) (h : t.shape = .word) : IsWord t.chars := by
  match t, h with
  | .atom (.bool true), _ | .atom (.bool false), _ =>
    exact .of_cons rfl (by decide) (List.forall_mem_singleton.2 rfl)
  | .atom (.int (.ofNat n)), _ => exact .digits n
  | .atom (.int (.negSucc n)), _ => exact .of_digits rfl (by decide) (n + 1)
  | .atom (.float _), _ => exact ht.elim
  | .atom (.sym name), _ => exact .name ht
  | .atom (.reified k), _ =>
    exact .of_cons rfl (by decide) (List.forall_mem_cons.2 ⟨rfl, (IsWord.digits k).forall_inWord⟩)
  | .var x, _ => exact .of_digits rfl (by decide) x.id

theorem readWord_chars (ht : t.Plain) (h : t.shape = .word) : readWord t.chars = t := by
  match t, h with
  | .atom (.bool true), _ | .atom (.bool false), _ => rfl
  | .atom (.int (.ofNat n)), _ => exact readWord_digits n
  | .atom (.int (.negSucc n)), _ => exact readWord_minus (n + 1)
  | .atom (.float _), _ => exact ht.elim
  | .atom (.sym name), _ => exact readWord_name ht
  | .atom (.reified k), _ => exact readWord_underscore k
  | .var x, _ => exact readWord_question x

theorem tailChars_of_word (h : t.shape = .word) : t.tailChars = ' ' :: '.' :: ' ' :: (t.chars ++ [')']) := by
  match t, h with
  | .atom (.bool _), _ | .atom (.int _), _ | .atom (.float _), _ | .atom (.sym _), _ | .atom (.reified _), _
  | .var _, _ => rfl

/-- A text does not begin with a character that would mean an end or a tail in its place. -/
theorem exists_chars_eq_cons (ht : t.Plain) : ∃ c cs, t.chars = c :: cs ∧ c ≠ ')' ∧ c ≠ '.' := by
  cases t using shape_induction with
  | empty => exact ⟨'(', [')'], rfl, by decide, by decide⟩
  | word t h =>
    obtain ⟨c, cs, hcs, -, hc⟩ := (isWord_chars ht h).exists_cons
    exact ⟨c, cs, hcs, hc⟩
  | pair a d => exact ⟨'(', a.chars ++ d.tailChars, rfl, by decide, by decide⟩

theorem ofText_chars (ht : t.Plain) (r : List Char) : Shape.ofText (t.chars ++ r) = t.shape := by
  cases t using shape_induction with
  | empty => rfl
  | word t h =>
    obtain ⟨c, cs, hcs, hpar, -⟩ := (isWord_chars ht h).exists_cons
    rw [hcs, h]
    simp [Shape.ofText, hpar]
  | pair a d =>
    obtain ⟨c, cs, hcs, hpar, -⟩ := exists_chars_eq_cons ht.1
    simp [chars, hcs, Shape.ofText, hpar, shape]

theorem ofTail_tailChars (ht : t.Plain) (r : List Char) : Shape.ofTail (t.tailChars ++ r) = t.shape := by
  cases t using shape_induction with
  | empty => rfl
  | word t h =>
    rw [tailChars_of_word h, h]
    rfl
  | pair a d =>
    obtain ⟨c, cs, hcs, -, hdot⟩ := exists_chars_eq_cons ht.1
    simp [tailChars, hcs, Shape.ofTail, hdot, shape]

theorem shape_eq_of_chars (ht : t.Plain) (hu : u.Plain) (h : t.chars ++ r = u.chars ++ s) :
    u.shape = t.shape := by
  rw [← ofText_chars hu s, ← h, ofText_chars ht]

theorem shape_eq_of_tailChars (ht : t.Plain) (hu : u.Plain) (h : t.tailChars ++ r = u.tailChars ++ s) :
    u.shape = t.shape := by
  rw [← ofTail_tailChars hu s, ← h, ofTail_tailChars ht]

/-! ## Reading texts -/

theorem endsWord_tailChars (t : Term Var) (r : List Char) : EndsWord (t.tailChars ++ r) := by
  cases t using shape_induction with
  | empty => simp [EndsWord, tailChars, nil, inWord]
  | word t h => simp [EndsWord, tailChars_of_word h, inWord]
  | pair a d => simp [EndsWord, tailChars, inWord]

theorem word_chars_append_inj (ht : t.Plain) (hu : u.Plain) (htw : t.shape = .word) (huw : u.shape = .word)
    (hr : EndsWord r) (hs : EndsWord s) (h : t.chars ++ r = u.chars ++ s) : t = u ∧ r = s := by
  obtain ⟨hchars, hrest⟩ := word_append_inj (isWord_chars ht htw) (isWord_chars hu huw) hr hs h
  exact ⟨by rw [← readWord_chars ht htw, hchars, readWord_chars hu huw], hrest⟩

/-- No two terms can be read off the same characters, neither where a term stands by itself, unless a word
goes on behind it, nor where it stands behind the first item of a list. -/
theorem chars_append_inj (ht : t.Plain) (hu : u.Plain) :
    (∀ r s, EndsWord r → EndsWord s → t.chars ++ r = u.chars ++ s → t = u ∧ r = s) ∧
      ∀ r s, t.tailChars ++ r = u.tailChars ++ s → t = u ∧ r = s := by
  -- The text of a pair holds the text of its first half and the tail of its second: both are needed at once.
  induction t using shape_induction generalizing u with
  | empty =>
    constructor
    · intro r s _ _ h
      obtain rfl := eq_nil_of_shape (shape_eq_of_chars ht hu h)
      exact ⟨rfl, List.append_cancel_left h⟩
    · intro r s h
      obtain rfl := eq_nil_of_shape (shape_eq_of_tailChars ht hu h)
      exact ⟨rfl, List.append_cancel_left h⟩
  | word t htw =>
    constructor
    · intro r s hr hs h
      exact word_chars_append_inj ht hu htw ((shape_eq_of_chars ht hu h).trans htw) hr hs h
    · intro r s h
      have huw := (shape_eq_of_tailChars ht hu h).trans htw
      have hends (q : List Char) : EndsWord (')' :: q) := by simp [EndsWord, inWord]
      simp only [tailChars_of_word htw, tailChars_of_word huw, List.cons_append, List.append_assoc,
        List.nil_append, List.cons.injEq, true_and] at h
      obtain ⟨rfl, hrest⟩ := word_chars_append_inj ht hu htw huw (hends r) (hends s) h
      exact ⟨rfl, (List.cons.inj hrest).2⟩
  | pair a d iha ihd =>
    -- No tail goes on with a word, so the first half ends where the tail begins.
    have halves {a' d' : Term Var} (hu : (pair a' d').Plain) {r s : List Char}
        (h : a.chars ++ (d.tailChars ++ r) = a'.chars ++ (d'.tailChars ++ s)) :
        pair a d = pair a' d' ∧ r = s := by
      obtain ⟨rfl, hrest⟩ := (iha ht.1 hu.1).1 _ _ (endsWord_tailChars d r) (endsWord_tailChars d' s) h
      obtain ⟨rfl, hrs⟩ := (ihd ht.2 hu.2).2 _ _ hrest
      exact ⟨rfl, hrs⟩
    constructor
    · intro r s _ _ h
      obtain ⟨a', d', rfl⟩ := exists_eq_pair_of_shape (shape_eq_of_chars ht hu h)
      simp only [chars, List.cons_append, List.append_assoc, List.cons.injEq, true_and] at h
      exact halves hu h
    · intro r s h
      obtain ⟨a', d', rfl⟩ := exists_eq_pair_of_shape (shape_eq_of_tailChars ht hu h)
      simp only [tailChars, List.cons_append, List.append_assoc, List.cons.injEq, true_and] at h
      exact halves hu h

/-- Terms that have no floats, and no symbols other than words of letters, have the same text only if they are
the same. -/
theorem text_eq_text_iff (ht : t.Plain) (hu : u.Plain) : t.text = u.text ↔ t = u := by
  refine ⟨fun h => ?_, congrArg text⟩
  have hchars : t.chars ++ [] = u.chars ++ [] := by
    rw [List.append_nil, List.append_nil, String.ofList_injective h]
  exact ((chars_append_inj ht hu).1 [] [] nofun nofun hchars).1

/-- A list as an item, a negative number and a name, once before a tail and once before one more item. -/
theorem text_eq_text_iff_dotted :
    let items : List (Term Var) := [.nil, .list [.int (-4), .sym "x"], .reified 0]
    let t := dotted items (.var ⟨2⟩)
    let u := list (items ++ [.var ⟨2⟩])
    t.Plain ∧ u.Plain ∧ t ≠ u ∧ t.text ≠ u.text ∧
      t.text = "(() (-4 x) _.0 . ?2)" ∧ u.text = "(() (-4 x) _.0 ?2)" := by
  intro items t u
  have ht : t.Plain := by decide
  have hu : u.Plain := by decide
  have hne : t ≠ u := fun h => absurd (congrArg (fun v => v.chain.1.length) h) (by decide)
  exact ⟨ht, hu, hne, fun h => hne ((text_eq_text_iff ht hu).1 h), by decide, by decide⟩

end Term

end Relational
