import Mathlib.Data.List.Basic
import Mathlib.Data.List.Infix
import Mathlib.Data.List.TakeWhile
import Mathlib.Tactic.Positivity

/-! `parselist` (`Bootstrap.cc`): the processors named by `FibreCpuSet`. One pass with three states; a run of
    digits is one step, each other character one. The accepted texts are the comma-separated lists of
    items each of which is empty, a number, or two numbers with a dash between them; anything else
    clears the list.

              digits            '-'             digits
        NONE ────────▶ NUM ────────────▶ DASH ────────▶ NONE (the range is pushed)
         ▲ ','          │ ',' (the number is pushed)
         └──────────────┘ -/

namespace Libfibre.Bootstrap

/-! ### The code -/

def INT_MAX : ℕ := 2 ^ 31 - 1

/-- The value of a run of digits. -/
def value (ds : List Char) : ℕ := Nat.ofDigitChars 10 ds 0

/-- `atoi` at a run of digits; undefined for what no `int` holds. -/
def atoi (ds : List Char) : Option ℕ := if value ds ≤ INT_MAX then some (value ds) else none

/-- `state`: what has been read of a range so far. -/
inductive Scan where
  | NONE
  | NUM
  | DASH
  deriving DecidableEq

/-- The local variables of `parselist`. -/
structure Vars where
  state : Scan
  lastnum : ℕ
  curnum : ℕ
  cpulist : List ℕ

/-- What becomes of the scan; `undefined`: the program's behaviour is. -/
inductive Outcome (α : Type) where
  | next (a : α)
  | parserr
  | undefined
  deriving DecidableEq

/-- What comes next happens only if nothing has gone wrong. -/
def Outcome.bind {α β : Type} (o : Outcome α) (f : α → Outcome β) : Outcome β :=
  match o with
  | .next a => f a
  | .parserr => .parserr
  | .undefined => .undefined

/-- The branch for a number; the loop that pushes a range ends by counting past its last member. -/
def number (v : Vars) (curnum : ℕ) : Outcome Vars :=
  match v.state with
  | .NONE => .next { v with curnum := curnum, lastnum := curnum, state := .NUM }
  | .DASH =>
    if curnum < v.lastnum then .next { v with curnum := curnum, state := .NONE }
    else if curnum = INT_MAX then .undefined
    else .next {
      state := .NONE
      lastnum := curnum + 1
      curnum := curnum
      cpulist := v.cpulist ++ List.range' v.lastnum (curnum + 1 - v.lastnum) }
  | .NUM => .parserr

/-- The branches for the other characters. -/
def separator (v : Vars) (c : Char) : Outcome Vars :=
  if c = ',' then
    match v.state with
    | .NONE => .next v
    | .NUM => .next { v with cpulist := v.cpulist ++ [v.curnum], state := .NONE }
    | .DASH => .parserr
  else if c = '-' then
    if v.state = .NUM then .next { v with state := .DASH } else .parserr
  else .parserr

/-- The end of the text. -/
def finish (v : Vars) : Outcome (List ℕ) :=
  match v.state with
  | .NONE => .next v.cpulist
  | .NUM => .next (v.cpulist ++ [v.curnum])
  | .DASH => .parserr

/-- The loop, for at most so many rounds. -/
def scan : ℕ → Vars → List Char → Outcome (List ℕ)
  | 0, _, _ => .undefined
  | _ + 1, v, [] => finish v
  | n + 1, v, c :: l =>
    if c.isDigit then
      match atoi ((c :: l).takeWhile Char.isDigit) with
      | none => .undefined
      | some curnum => (number v curnum).bind fun v' => scan n v' ((c :: l).dropWhile Char.isDigit)
    else (separator v c).bind fun v' => scan n v' l

/-- `parselist`; every round takes a character. -/
def parselist (list : List Char) (cpulist : List ℕ) : Outcome (List ℕ) :=
  match scan (list.length + 1) ⟨.NONE, 0, 0, cpulist⟩ list with
  | .parserr => .next []
  | o => o

/-! ### The language -/

/-- A number as it is written. -/
structure Numeral where
  digits : List Char
  ne : digits ≠ []
  isDigit : ∀ d ∈ digits, d.isDigit = true

/-- The number written. -/
def Numeral.value (n : Numeral) : ℕ := Bootstrap.value n.digits

/-- What may stand between two commas of a list. -/
inductive Item where
  | empty
  | one (n : Numeral)
  | range (first last : Numeral)

/-- How it is written. -/
def Item.text : Item → List Char
  | .empty => []
  | .one n => n.digits
  | .range first last => first.digits ++ '-' :: last.digits

/-- The processors that an item names. -/
def Item.cpus : Item → List ℕ
  | .empty => []
  | .one n => [n.value]
  | .range first last => List.range' first.value (last.value + 1 - first.value)

/-- The items after the first. -/
def tail : List Item → List Char
  | [] => []
  | i :: is => ',' :: (i.text ++ tail is)

/-- A list as it is written. -/
def render (i : Item) (is : List Item) : List Char := i.text ++ tail is

/-- The processors that a list names, in its order. -/
def cpus (is : List Item) : List ℕ := is.flatMap Item.cpus

/-- The numbers of a text are less than `INT_MAX`. -/
def Small (l : List Char) : Prop :=
  ∀ ds, ds <:+: l → (∀ d ∈ ds, d.isDigit = true) → value ds < INT_MAX

/-- No number goes on here. -/
def Ends (l : List Char) : Prop := ∀ c l', l = c :: l' → c.isDigit = false

variable {n : ℕ} {v v' : Vars} {l r : List Char} {i : Item} {is : List Item} {cs : List ℕ}

theorem Small.part (h : Small l) (hr : r <:+: l) : Small r := fun ds hds => h ds (hds.trans hr)

theorem ends_nil : Ends [] := nofun

theorem ends_cons {c : Char} (h : c.isDigit = false) : Ends (c :: l) := by
  intro c' l' hl
  rw [← (List.cons.inj hl).1]
  exact h

theorem ends_tail (is : List Item) : Ends (tail is) := by
  cases is with
  | nil => exact ends_nil
  | cons i is => exact ends_cons rfl

/-- The longest run of digits at a number. -/
theorem takeWhile_digits {ds : List Char} (hds : ∀ d ∈ ds, d.isDigit = true) (hr : Ends r) :
    (ds ++ r).takeWhile Char.isDigit = ds ∧ (ds ++ r).dropWhile Char.isDigit = r := by
  have hnone : r.takeWhile Char.isDigit = [] ∧ r.dropWhile Char.isDigit = r := by
    cases r with
    | nil => exact ⟨rfl, rfl⟩
    | cons c r =>
      have hc := hr c r rfl
      exact ⟨List.takeWhile_cons_of_neg (by simp [hc]), List.dropWhile_cons_of_neg (by simp [hc])⟩
  rw [List.takeWhile_append_of_pos hds, List.dropWhile_append_of_pos hds, hnone.1, hnone.2,
    List.append_nil]
  exact ⟨rfl, rfl⟩

/-- One round over a number. -/
theorem scan_number (m : Numeral) (hsmall : m.value ≤ INT_MAX) (hr : Ends r) :
    scan (n + 1) v (m.digits ++ r) = (number v m.value).bind fun v' => scan n v' r := by
  obtain ⟨htake, hdrop⟩ := takeWhile_digits m.isDigit hr
  obtain ⟨d, ds, hds⟩ := List.exists_cons_of_ne_nil m.ne
  have hd := m.isDigit d (hds ▸ List.mem_cons_self)
  have hatoi : atoi m.digits = some m.value := if_pos hsmall
  rw [hds, List.cons_append] at htake hdrop ⊢
  rw [scan, if_pos hd, htake, hdrop, ← hds, hatoi]

/-- One round over another character. -/
theorem scan_separator {c : Char} (hc : c.isDigit = false) :
    scan (n + 1) v (c :: r) = (separator v c).bind fun v' => scan n v' r := by
  rw [scan, hc, if_neg Bool.false_ne_true]

/-! ### What is accepted -/

/-- At the end of an item a number that is held back is pushed. -/
theorem scan_tail_num (is : List Item) (hv : v.state = .NUM) (hn : 0 < n) :
    scan n v (tail is) = scan n { v with cpulist := v.cpulist ++ [v.curnum], state := .NONE } (tail is) := by
  obtain ⟨m, rfl⟩ := Nat.exists_eq_add_one.mpr hn
  cases is with
  | nil => simp only [tail, scan, finish, hv]
  | cons i is =>
    rw [tail, scan_separator rfl, scan_separator rfl]
    simp only [separator, hv, if_true]

/-- An item is scanned if what follows it is. -/
theorem scan_item (hv : v.state = .NONE) (hn : (i.text ++ tail is).length < n)
    (hsmall : Small (i.text ++ tail is))
    (hrest : ∀ m w, (tail is).length < m → w.state = .NONE →
      scan m w (tail is) = .next (w.cpulist ++ cpus is)) :
    scan n v (i.text ++ tail is) = .next (v.cpulist ++ (i.cpus ++ cpus is)) := by
  have hvalue : ∀ m : Numeral, m.digits <:+: i.text ++ tail is → m.value < INT_MAX :=
    fun m hm => hsmall m.digits hm m.isDigit
  cases i with
  | empty => exact hrest n v hn hv
  | one m =>
    have hm := hvalue m (List.prefix_append ..).isInfix
    obtain ⟨k, rfl⟩ := Nat.exists_eq_add_one.mpr (Nat.zero_lt_of_lt hn)
    have hlen : (tail is).length < k := by
      have hpos := List.length_pos_of_ne_nil m.ne
      rw [Item.text, List.length_append] at hn
      omega
    rw [Item.text, scan_number m hm.le (ends_tail is), number, hv]
    show scan k _ (tail is) = _
    rw [scan_tail_num is rfl (Nat.zero_lt_of_lt hlen), hrest k _ hlen rfl]
    simp [Item.cpus]
  | range first last =>
    have hfirst := hvalue first ((List.prefix_append ..).isInfix.trans (List.prefix_append ..).isInfix)
    have hlast : last.value < INT_MAX := by
      refine hvalue last ?_
      exact ⟨first.digits ++ ['-'], tail is, by simp [Item.text]⟩
    obtain ⟨k, rfl⟩ : ∃ k, n = k + 3 := by
      have hpos := List.length_pos_of_ne_nil first.ne
      have hpos' := List.length_pos_of_ne_nil last.ne
      rw [Item.text, List.length_append, List.length_append, List.length_cons] at hn
      exact ⟨n - 3, by omega⟩
    have hlen : (tail is).length < k := by
      have hpos := List.length_pos_of_ne_nil first.ne
      have hpos' := List.length_pos_of_ne_nil last.ne
      rw [Item.text, List.length_append, List.length_append, List.length_cons] at hn
      omega
    have htext : (Item.range first last).text ++ tail is
        = first.digits ++ ('-' :: (last.digits ++ tail is)) := by simp [Item.text]
    rw [htext, scan_number first hfirst.le (ends_cons rfl), number, hv]
    show scan (k + 2) _ ('-' :: (last.digits ++ tail is)) = _
    rw [scan_separator rfl]
    show scan (k + 1) _ (last.digits ++ tail is) = _
    rw [scan_number last hlast.le (ends_tail is), number]
    dsimp only
    by_cases hlt : last.value < first.value
    · rw [if_pos hlt]
      have hnone : last.value + 1 - first.value = 0 := by omega
      show scan k _ (tail is) = _
      rw [hrest k _ hlen rfl, Item.cpus, hnone]
      rfl
    · rw [if_neg hlt, if_neg (by omega)]
      show scan k _ (tail is) = _
      rw [hrest k _ hlen rfl, List.append_assoc]
      rfl

/-- The items that are left. -/
theorem scan_tail : ∀ (is : List Item) (n : ℕ) (v : Vars), Small (tail is) → (tail is).length < n →
    v.state = .NONE → scan n v (tail is) = .next (v.cpulist ++ cpus is)
  | [], n, v, _, hn, hv => by
    obtain ⟨k, rfl⟩ := Nat.exists_eq_add_one.mpr hn
    simp [tail, scan, finish, hv, cpus]
  | i :: is, n, v, hsmall, hn, hv => by
    obtain ⟨k, rfl⟩ := Nat.exists_eq_add_one.mpr (Nat.zero_lt_of_lt hn)
    have hsmall' : Small (i.text ++ tail is) := hsmall.part (List.suffix_cons ..).isInfix
    rw [tail, scan_separator rfl, separator, if_pos rfl, hv]
    show scan k v (i.text ++ tail is) = _
    rw [tail, List.length_cons] at hn
    rw [scan_item hv (by omega) hsmall' fun m w hm hw =>
      scan_tail is m w (hsmall'.part (List.suffix_append ..).isInfix) hm hw]
    rfl

/-- What is written as a list is read as the processors that it names. -/
theorem parselist_render (i : Item) (is : List Item) (hsmall : Small (render i is)) :
    parselist (render i is) cs = .next (cs ++ cpus (i :: is)) := by
  rw [parselist, render, scan_item rfl (Nat.lt_succ_self _) hsmall fun m w hm hw =>
    scan_tail is m w (hsmall.part (List.suffix_append ..).isInfix) hm hw]
  rfl

/-! ### Nothing else is -/

/-- A number at the front of a text. -/
theorem exists_numeral {c : Char} (hc : c.isDigit = true) :
    ∃ m : Numeral, ∃ r, c :: l = m.digits ++ r ∧ Ends r := by
  refine ⟨⟨(c :: l).takeWhile Char.isDigit, ?_, ?_⟩, (c :: l).dropWhile Char.isDigit,
    List.takeWhile_append_dropWhile.symm, ?_⟩
  · rw [List.takeWhile_cons_of_pos hc]
    exact List.cons_ne_nil _ _
  · intro d hd
    exact List.mem_takeWhile_imp hd
  · intro d r hr
    have hhead := List.head?_dropWhile_not Char.isDigit (c :: l)
    rw [hr] at hhead
    simpa using hhead

/-- Where no number goes on, an item is empty. -/
theorem item_of_ends (h : Ends (i.text ++ l)) : i.text = [] := by
  have hne (m : Numeral) (r : List Char) : ¬ Ends (m.digits ++ r) := by
    intro hends
    obtain ⟨d, ds, hds⟩ := List.exists_cons_of_ne_nil m.ne
    rw [hds] at hends
    have hd := hends d (ds ++ r) rfl
    rw [m.isDigit d (hds ▸ List.mem_cons_self)] at hd
    cases hd
  cases i with
  | empty => rfl
  | one m => exact absurd h (hne m l)
  | range first last =>
    rw [Item.text, List.append_assoc] at h
    exact absurd h (hne first _)

/-- What is still to come in each state. -/
def Expects : Scan → List Char → Prop
  | .NONE, l => ∃ i is, l = render i is
  | .NUM, l => (∃ is, l = tail is) ∨ ∃ m : Numeral, ∃ is, l = '-' :: (m.digits ++ tail is)
  | .DASH, l => ∃ m : Numeral, ∃ is, l = m.digits ++ tail is

/-- Where an item may begin and no number goes on, the next item does. -/
theorem expects_tail (h : Expects .NONE r) (hr : Ends r) : ∃ is, r = tail is := by
  obtain ⟨i, is, rfl⟩ := h
  refine ⟨is, ?_⟩
  rw [render, item_of_ends hr]
  rfl

/-- What a round over a number leaves to come. -/
theorem expects_number {m : Numeral} (hr : Ends r) (hv : number v m.value = .next v')
    (h : Expects v'.state r) : Expects v.state (m.digits ++ r) := by
  unfold number at hv
  cases hs : v.state with
  | NONE =>
    rw [hs] at hv
    cases hv
    obtain ⟨is, rfl⟩ | ⟨m', is, rfl⟩ := h
    · exact ⟨.one m, is, rfl⟩
    · exact ⟨.range m m', is, by simp [render, Item.text]⟩
  | NUM =>
    rw [hs] at hv
    cases hv
  | DASH =>
    rw [hs] at hv
    dsimp only at hv
    have hnone : v'.state = .NONE := by
      split at hv
      · cases hv
        rfl
      · split at hv
        · cases hv
        · cases hv
          rfl
    rw [hnone] at h
    obtain ⟨is, rfl⟩ := expects_tail h hr
    exact ⟨m, is, rfl⟩

/-- What a round over another character leaves to come. -/
theorem expects_separator {c : Char} (hv : separator v c = .next v') (h : Expects v'.state r) :
    Expects v.state (c :: r) := by
  unfold separator at hv
  by_cases hcomma : c = ','
  · subst hcomma
    rw [if_pos rfl] at hv
    cases hs : v.state with
    | NONE =>
      simp only [hs, Outcome.next.injEq] at hv
      subst hv
      rw [hs] at h
      obtain ⟨i, is, rfl⟩ := h
      exact ⟨.empty, i :: is, rfl⟩
    | NUM =>
      simp only [hs, Outcome.next.injEq] at hv
      subst hv
      obtain ⟨i, is, rfl⟩ := h
      exact .inl ⟨i :: is, rfl⟩
    | DASH => simp [hs] at hv
  · rw [if_neg hcomma] at hv
    split at hv
    · next hdash =>
      subst hdash
      split at hv
      · next hs =>
        cases hv
        obtain ⟨m, is, rfl⟩ := h
        rw [hs]
        exact .inr ⟨m, is, rfl⟩
      · cases hv
    · cases hv

/-- What is read to its end is what was to come. -/
theorem scan_expects : ∀ (n : ℕ) (v : Vars) (l : List Char) (ns : List ℕ),
    scan n v l = .next ns → Expects v.state l
  | 0, v, l, ns, h => by cases h
  | n + 1, v, [], ns, h => by
    rw [scan, finish] at h
    cases hs : v.state with
    | NONE => exact ⟨.empty, [], rfl⟩
    | NUM => exact .inl ⟨[], rfl⟩
    | DASH =>
      rw [hs] at h
      cases h
  | n + 1, v, c :: l, ns, h => by
    by_cases hc : c.isDigit = true
    · obtain ⟨m, r, hl, hr⟩ := exists_numeral (l := l) hc
      have hsmall : m.value ≤ INT_MAX := by
        by_contra hlt
        obtain ⟨htake, -⟩ := takeWhile_digits m.isDigit hr
        have hatoi : atoi m.digits = none := if_neg hlt
        rw [scan, if_pos hc, hl, htake, hatoi] at h
        cases h
      rw [hl] at h ⊢
      rw [scan_number m hsmall hr] at h
      cases hv : number v m.value with
      | next v' =>
        rw [hv] at h
        exact expects_number hr hv (scan_expects n v' r ns h)
      | parserr =>
        rw [hv] at h
        cases h
      | undefined =>
        rw [hv] at h
        cases h
    · rw [scan_separator (by simpa using hc)] at h
      cases hv : separator v c with
      | next v' =>
        rw [hv] at h
        exact expects_separator hv (scan_expects n v' l ns h)
      | parserr =>
        rw [hv] at h
        cases h
      | undefined =>
        rw [hv] at h
        cases h

/-! ### Nothing is undefined -/

theorem finish_defined : finish v ≠ .undefined := by
  unfold finish
  split <;> nofun

theorem separator_defined {c : Char} : separator v c ≠ .undefined := by
  unfold separator
  repeat' split
  all_goals nofun

theorem number_defined {k : ℕ} (h : k < INT_MAX) : number v k ≠ .undefined := by
  unfold number
  split
  · nofun
  · split
    · nofun
    · rw [if_neg h.ne]
      nofun
  · nofun

/-- A text with small numbers is read without overflow, in the rounds it is given. -/
theorem scan_defined : ∀ (n : ℕ) (v : Vars) (l : List Char), Small l → l.length < n →
    scan n v l ≠ .undefined
  | 0, v, l, _, hn => absurd hn (Nat.not_lt_zero _)
  | n + 1, v, [], _, _ => finish_defined
  | n + 1, v, c :: l, hsmall, hn => by
    by_cases hc : c.isDigit = true
    · obtain ⟨m, r, hl, hr⟩ := exists_numeral (l := l) hc
      have hpos := List.length_pos_of_ne_nil m.ne
      rw [hl] at hsmall hn ⊢
      have hm : m.value < INT_MAX := hsmall m.digits (List.prefix_append ..).isInfix m.isDigit
      rw [scan_number m hm.le hr]
      cases hv : number v m.value with
      | next v' =>
        rw [List.length_append] at hn
        exact scan_defined n v' r (hsmall.part (List.suffix_append ..).isInfix) (by omega)
      | parserr => nofun
      | undefined => exact absurd hv (number_defined hm)
    · rw [scan_separator (by simpa using hc)]
      cases hv : separator v c with
      | next v' =>
        exact scan_defined n v' l (hsmall.part (List.suffix_cons ..).isInfix) (Nat.lt_of_succ_lt_succ hn)
      | parserr => nofun
      | undefined => exact absurd hv separator_defined

/-- What is not written as a list names no processor, not even those that were named before. -/
theorem parselist_error (hsmall : Small l) (hl : ∀ i is, l ≠ render i is) : parselist l cs = .next [] := by
  unfold parselist
  cases h : scan (l.length + 1) ⟨.NONE, 0, 0, cs⟩ l with
  | next ns =>
    obtain ⟨i, is, hrender⟩ := scan_expects _ _ _ _ h
    exact absurd hrender (hl i is)
  | parserr => rfl
  | undefined => exact absurd h (scan_defined _ _ _ hsmall (Nat.lt_succ_self _))

/-! ### Numbers in decimal -/

/-- A run of digits lies on one side of what is no digit. -/
theorem infix_separator {c : Char} {ds a b : List Char} (h : ds <:+: a ++ c :: b)
    (hds : ∀ d ∈ ds, d.isDigit = true) (hc : c.isDigit = false) : ds <:+: a ∨ ds <:+: b := by
  have hbefore : ∀ es, (∀ d ∈ es, d ∈ ds) → es <+: c :: b → es = [] := by
    intro es hes hpre
    cases es with
    | nil => rfl
    | cons e es =>
      have he := hds e (hes e List.mem_cons_self)
      rw [(List.cons_prefix_cons.mp hpre).1, hc] at he
      cases he
  obtain ha | hb | ⟨ds₁, ds₂, rfl, h₁, h₂⟩ := List.infix_append_iff.mp h
  · exact .inl ha
  · obtain hpre | hb := List.infix_cons_iff.mp hb
    · rw [hbefore ds (fun d hd => hd) hpre]
      exact .inl (List.nil_infix ..)
    · exact .inr hb
  · rw [hbefore ds₂ (fun d hd => List.mem_append_right ds₁ hd) h₂, List.append_nil]
    exact .inl h₁.isInfix

/-- A part of a number is no greater. -/
theorem value_infix {ds es : List Char} (h : ds <:+: es) : value ds ≤ value es := by
  obtain ⟨a, b, rfl⟩ := h
  have hleft : value ds ≤ value (a ++ ds) := by
    unfold value
    rw [Nat.ofDigitChars_append, @Nat.ofDigitChars_eq_ofDigitChars_zero ds (Nat.ofDigitChars 10 a 0)]
    exact Nat.le_add_left _ _
  have hright : value (a ++ ds) ≤ value (a ++ ds ++ b) := by
    have hpos : 0 < 10 ^ b.length := by positivity
    unfold value
    rw [Nat.ofDigitChars_append _ (m := b), Nat.ofDigitChars_eq_ofDigitChars_zero (l := b)]
    exact (Nat.le_mul_of_pos_left _ hpos).trans (Nat.le_add_right _ _)
  exact hleft.trans hright

theorem Small.append {c : Char} (h : Small l) (hr : Small r) (hc : c.isDigit = false) :
    Small (l ++ c :: r) := by
  intro ds hds hdigit
  obtain hl | hr' := infix_separator hds hdigit hc
  · exact h ds hl hdigit
  · exact hr ds hr' hdigit

/-- A processor in decimal. -/
def decimal (k : ℕ) : Numeral where
  digits := Nat.toDigits 10 k
  ne := by simp
  isDigit := fun _ hd => Nat.isDigit_of_mem_toDigits (by decide) (by decide) hd

theorem decimal_value (k : ℕ) : (decimal k).value = k := Nat.ofDigitChars_ten_toDigits

/-- A list of processors in decimal, with commas between them. -/
def decimals : List ℕ → List Char
  | [] => []
  | k :: ks => render (.one (decimal k)) (ks.map fun j => .one (decimal j))

theorem small_decimal {k : ℕ} (h : k < INT_MAX) : Small (decimal k).digits := by
  intro ds hds _
  have hle := value_infix hds
  rw [← decimal_value k] at h
  exact hle.trans_lt h

theorem small_decimals : ∀ ks : List ℕ, (∀ k ∈ ks, k < INT_MAX) → Small (decimals ks)
  | [], _ => by
    intro ds hds _
    rw [decimals, List.infix_nil] at hds
    rw [hds]
    exact Nat.lt_of_sub_eq_succ rfl
  | k :: ks, h => by
    have hk := small_decimal (h k List.mem_cons_self)
    cases ks with
    | nil =>
      rw [decimals, render, List.map_nil, tail, List.append_nil]
      exact hk
    | cons j js =>
      exact hk.append (small_decimals (j :: js) fun i hi => h i (List.mem_cons_of_mem k hi)) rfl

theorem cpus_decimals (ks : List ℕ) : cpus (ks.map fun k => .one (decimal k)) = ks := by
  induction ks with
  | nil => rfl
  | cons k ks ih =>
    rw [cpus, List.map_cons, List.flatMap_cons, ← cpus, ih, Item.cpus, decimal_value]
    rfl

/-- A list of processors that is written in decimal is read as it was. -/
theorem parselist_decimals (ks : List ℕ) (h : ∀ k ∈ ks, k < INT_MAX) :
    parselist (decimals ks) cs = .next (cs ++ ks) := by
  cases ks with
  | nil =>
    have hempty : parselist [] cs = .next (cs ++ cpus [.empty]) :=
      parselist_render .empty [] (small_decimals [] h)
    rw [decimals, hempty]
    rfl
  | cons k ks =>
    have hcpus := cpus_decimals (k :: ks)
    rw [List.map_cons] at hcpus
    rw [decimals, parselist_render _ _ (small_decimals (k :: ks) h), hcpus]

/-- A text whose numbers are less than `INT_MAX` is read as a list exactly if it is written as one; it
    then names, after those that were named before, the processors of its items in their order, and
    otherwise none. What is written in decimal is read back. -/
theorem parselist_reads (cs : List ℕ) :
    (∀ l, Small l →
      (∀ i is, l = render i is → parselist l cs = .next (cs ++ cpus (i :: is))) ∧
      ((∀ i is, l ≠ render i is) → parselist l cs = .next [])) ∧
    ∀ ks : List ℕ, (∀ k ∈ ks, k < INT_MAX) → parselist (decimals ks) cs = .next (cs ++ ks) := by
  refine ⟨?_, fun ks hks => parselist_decimals ks hks⟩
  intro l hsmall
  refine ⟨?_, parselist_error hsmall⟩
  rintro i is rfl
  exact parselist_render i is hsmall

/-- A range and a processor, and two processors in decimal. -/
theorem parselist_reads_range :
    parselist (render (.range (decimal 2) (decimal 4)) [.one (decimal 9)]) [1] = .next [1, 2, 3, 4, 9] ∧
    parselist (decimals [10, 7]) [1] = .next [1, 10, 7] := by
  obtain ⟨hlist, hdecimals⟩ := parselist_reads [1]
  have hsmall : Small (render (.range (decimal 2) (decimal 4)) [.one (decimal 9)]) := by
    have h2 : Small (decimal 2).digits := small_decimal (Nat.le_of_ble_eq_true rfl)
    have h49 : Small (decimals [4, 9]) := small_decimals [4, 9] (by decide)
    exact h2.append h49 rfl
  exact ⟨(hlist _ hsmall).1 _ _ rfl, hdecimals [10, 7] (by decide)⟩

end Libfibre.Bootstrap
