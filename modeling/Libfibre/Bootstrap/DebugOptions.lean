import Mathlib.Data.Fin.VecNotation
import Mathlib.Data.List.Basic
import Mathlib.Data.List.FinRange
import Mathlib.Data.List.Infix
import Mathlib.Data.List.TakeWhile
import Mathlib.Data.Nat.Bitwise

/-! `DBG::init` (`Debug.cc`): the debug levels named by `FibreDebugString`, each word between commas by a
    prefix of its option. The words are cut out of the text in place: the comma after a word is overwritten
    with a null while the word is looked up, and put back.

        wordstart        wordend                  end
            ▼               ▼                      ▼
            B l o c k i n g , P o l l i n g , … \0 -/

namespace Libfibre.DBG

/-- The terminator of a string, and what separates the words. -/
def NUL : Char := '\x00'

def comma : Char := ','

/-- `DBG::Level` -/
def Basic : ℕ := 0

def MaxLevel : ℕ := 6

/-- A table of options, one for each level. -/
abbrev Options := Fin MaxLevel → List Char

/-! ### The code -/

/-- The string at `p`. -/
def cstring (buf : List Char) (p : ℕ) : List Char := (buf.drop p).takeWhile (· ≠ NUL)

/-- `strchr`, for a character that is not the terminator. -/
def strchr (buf : List Char) (p : ℕ) (c : Char) : Option ℕ :=
  ((cstring buf p).findIdx? (· = c)).map (p + ·)

/-- Whether `strncmp` of two strings is 0. -/
def strncmp (a b : List Char) (n : ℕ) : Bool := decide (a.take n = b.take n)

def bitSet (levels level : ℕ) : ℕ := levels ||| 1 <<< level

structure State where
  buf : List Char
  levels : ℕ
  deriving DecidableEq

/-- The loop over the levels that are left; `none`: a second one matches. -/
def lookup (options : Options) (word : List Char) (n : ℕ) :
    List (Fin MaxLevel) → Option (Fin MaxLevel) → Option (Option (Fin MaxLevel))
  | [], level => some level
  | i :: is, level =>
    if strncmp word (options i) n then
      if level.isNone then lookup options word n is (some i) else none
    else lookup options word n is level

/-- `DBG::outl` at level `Basic`: the functions that are compiled are empty (`RuntimeDebug.h`). -/
def State.outl (s : State) : State := s

def State.say (s : State) (print : Bool) : State := if print then s.outl else s

/-- What a word is good for. -/
def State.word (s : State) (options : Options) (print : Bool) (word : List Char) (n : ℕ) : State :=
  match lookup options word n (List.finRange MaxLevel) none with
  | none => s.say print                  -- multiple matches
  | some none => s.say print             -- unmatched
  | some (some level) => State.say { s with levels := bitSet s.levels level } print

/-- The loop over the words; the fuel is for one that never ends. -/
def loop (options : Options) (print : Bool) (last : ℕ) : ℕ → State → ℕ → Option State
  | 0, _, _ => none
  | fuel + 1, s, wordstart =>
    let wordend := (strchr s.buf wordstart comma).getD last
    let cut := { s with buf := s.buf.set wordend NUL }
    let s := cut.word options print (cstring cut.buf wordstart) (wordend - wordstart)
    if wordend = last then some s
    else loop options print last fuel { s with buf := s.buf.set wordend comma } (wordend + 1)

def init (options : Options) (dstring : List Char) (print : Bool) : Option State :=
  loop options print dstring.length (dstring.length + 1) ⟨dstring ++ [NUL], bitSet 0 Basic⟩ 0

/-! ### What it is for -/

/-- The levels whose option a word is a prefix of. -/
def hits (options : Options) (word : List Char) (is : List (Fin MaxLevel)) : List (Fin MaxLevel) :=
  is.filter fun i => word <+: options i

/-- The level of a word, if it is of one. -/
def level (options : Options) (word : List Char) : Option (Fin MaxLevel) :=
  match hits options word (List.finRange MaxLevel) with
  | [level] => some level
  | _ => none

/-- A word is of a level if that is the only one whose option it is a prefix of. -/
theorem level_eq_some {options : Options} {word : List Char} {k : Fin MaxLevel} :
    level options word = some k ↔ ∀ i, word <+: options i ↔ i = k := by
  have hmem : ∀ i, word <+: options i ↔ i ∈ hits options word (List.finRange MaxLevel) := by
    intro i
    rw [hits, List.mem_filter, decide_eq_true_iff]
    exact (and_iff_right (List.mem_finRange i)).symm
  have hnodup : (hits options word (List.finRange MaxLevel)).Nodup :=
    (List.nodup_finRange MaxLevel).filter _
  simp only [hmem, level]
  match hits options word (List.finRange MaxLevel), hnodup with
  | [], _ => simp
  | [l], _ =>
    simp only [Option.some.injEq, List.mem_singleton]
    exact ⟨fun hl i => by rw [hl], fun h => (h l).mp rfl⟩
  | a :: b :: ls, hnodup =>
    refine iff_of_false nofun fun h => ?_
    have ha := (h a).mp List.mem_cons_self
    have hb := (h b).mp (List.mem_cons_of_mem a List.mem_cons_self)
    rw [ha, ← hb] at hnodup
    exact (List.nodup_cons.mp hnodup).1 List.mem_cons_self

/-! ### One word -/

theorem strncmp_iff {word option : List Char} :
    strncmp word option word.length = true ↔ word <+: option := by
  rw [strncmp, decide_eq_true_iff, List.take_length, List.prefix_iff_eq_take]

theorem hits_cons (options : Options) (word : List Char) (i : Fin MaxLevel) (is : List (Fin MaxLevel)) :
    hits options word (i :: is) =
      if word <+: options i then i :: hits options word is else hits options word is := by
  simp only [hits, List.filter_cons, decide_eq_true_iff]

theorem lookup_some (options : Options) (word : List Char) (k : Fin MaxLevel) :
    ∀ is : List (Fin MaxLevel), lookup options word word.length is (some k) =
      if hits options word is = [] then some (some k) else none
  | [] => rfl
  | i :: is => by
    rw [lookup, hits_cons, lookup_some options word k is]
    simp only [strncmp_iff]
    split <;> rfl

theorem lookup_none (options : Options) (word : List Char) : ∀ is : List (Fin MaxLevel),
    lookup options word word.length is none =
      match hits options word is with
      | [] => some none
      | [k] => some (some k)
      | _ => none
  | [] => rfl
  | i :: is => by
    rw [lookup, hits_cons, lookup_none options word is, lookup_some]
    simp only [strncmp_iff]
    split
    · cases hits options word is <;> rfl
    · rfl

/-- What a word adds. -/
def State.add (options : Options) (s : State) (word : List Char) : State where
  buf := s.buf
  levels := match level options word with
    | some k => bitSet s.levels k
    | none => s.levels

theorem say_eq (s : State) (print : Bool) : s.say print = s := by
  cases print <;> rfl

theorem word_eq (options : Options) (print : Bool) (s : State) (word : List Char) :
    s.word options print word word.length = s.add options word := by
  rw [State.word, lookup_none, State.add, level]
  rcases hits options word (List.finRange MaxLevel) with - | ⟨a, - | ⟨b, ls⟩⟩ <;> exact say_eq _ print

/-! ### The text -/

theorem cstring_at {pre word rest : List Char} (h : NUL ∉ word) :
    cstring (pre ++ (word ++ NUL :: rest)) pre.length = word := by
  rw [cstring, List.drop_left, List.takeWhile_append_of_pos, List.takeWhile_cons_of_neg, List.append_nil]
  · simp
  · intro c hc
    refine decide_eq_true ?_
    rintro rfl
    exact h hc

/-- Up to the comma. -/
theorem strchr_comma {pre word rest : List Char} (h : NUL ∉ word ++ comma :: rest) (hword : comma ∉ word) :
    strchr (pre ++ (word ++ comma :: rest ++ [NUL])) pre.length comma =
      some (pre.length + word.length) := by
  have hnone : word.findIdx? (· = comma) = none := by
    rw [List.findIdx?_eq_none_iff]
    intro c hc
    refine decide_eq_false ?_
    rintro rfl
    exact hword hc
  rw [strchr, cstring_at h, List.findIdx?_append, hnone, List.findIdx?_cons, if_pos (decide_eq_true rfl)]
  simp

theorem strchr_last {pre word : List Char} (h : NUL ∉ word) (hword : comma ∉ word) :
    strchr (pre ++ (word ++ [NUL])) pre.length comma = none := by
  rw [strchr, cstring_at h, Option.map_eq_none_iff, List.findIdx?_eq_none_iff]
  intro c hc
  refine decide_eq_false ?_
  rintro rfl
  exact hword hc

theorem set_at (pre word : List Char) (c d : Char) (rest : List Char) :
    (pre ++ (word ++ c :: rest)).set (pre.length + word.length) d = pre ++ (word ++ d :: rest) := by
  rw [List.set_append_right _ _ (by omega), Nat.add_sub_cancel_left,
    List.set_append_right _ _ (le_refl _), Nat.sub_self, List.set_cons_zero]

/-- The loop over the words of `rest`; what has been cut is put together again. -/
theorem loop_eq (options : Options) (print : Bool) :
    ∀ (fuel : ℕ) (pre rest : List Char) (s : State), s.buf = pre ++ (rest ++ [NUL]) → NUL ∉ rest →
      rest.length < fuel → loop options print (pre.length + rest.length) fuel s pre.length =
        some ((rest.splitOn comma).foldl (State.add options) s)
  | 0, _, _, _, _, _, hfuel => absurd hfuel (Nat.not_lt_zero _)
  | fuel + 1, pre, rest, s, hbuf, hnul, hfuel => by
    by_cases hcomma : comma ∈ rest
    · obtain ⟨word, rest, rfl, hword⟩ := List.eq_append_cons_of_mem hcomma
      have hend : (strchr s.buf pre.length comma).getD
          (pre.length + (word ++ comma :: rest).length) = pre.length + word.length := by
        rw [hbuf, strchr_comma hnul hword, Option.getD_some]
      have hcut : s.buf.set (pre.length + word.length) NUL =
          pre ++ (word ++ NUL :: (rest ++ [NUL])) := by
        rw [hbuf, List.append_assoc word, List.cons_append, set_at]
      have hback : (pre ++ (word ++ NUL :: (rest ++ [NUL]))).set (pre.length + word.length) comma =
          s.buf := by
        rw [set_at, hbuf, List.append_assoc word, List.cons_append]
      have hnot : NUL ∉ word := fun h => hnul (List.mem_append_left _ h)
      have hlast : pre.length + word.length ≠ pre.length + (word ++ comma :: rest).length := by
        rw [List.length_append, List.length_cons]
        omega
      have hlen : (word ++ comma :: rest).length = word.length + (rest.length + 1) := by
        rw [List.length_append, List.length_cons]
      have hpre : (pre ++ word ++ [comma]).length = pre.length + word.length + 1 := by simp; omega
      rw [loop, hend, Nat.add_sub_cancel_left, hcut, cstring_at hnot, word_eq, if_neg hlast,
        List.splitOn_append_cons_self_of_not_mem hword, List.foldl_cons]
      have ih := loop_eq options print fuel (pre ++ word ++ [comma]) rest (s.add options word)
        (by rw [State.add, hbuf]; simp) (fun h => hnul (by simp [h])) (by omega)
      rw [hpre] at ih
      have hsum : pre.length + (word ++ comma :: rest).length =
          pre.length + word.length + 1 + rest.length := by omega
      rw [hsum, ← ih]
      simp only [State.add, hback]
    · have hend : (strchr s.buf pre.length comma).getD (pre.length + rest.length) =
          pre.length + rest.length := by
        rw [hbuf, strchr_last hnul hcomma, Option.getD_none]
      have hcut : s.buf.set (pre.length + rest.length) NUL = pre ++ (rest ++ [NUL]) := by
        rw [hbuf, set_at]
      rw [loop, hend, Nat.add_sub_cancel_left, hcut, cstring_at hnul, word_eq, if_pos rfl,
        List.splitOn_eq_singleton hcomma, List.foldl_cons, List.foldl_nil, ← hbuf]

/-! ### All words -/

theorem testBit_bitSet (levels k i : ℕ) :
    (bitSet levels k).testBit i = (levels.testBit i || decide (k = i)) := by
  rw [bitSet, Nat.testBit_or, Nat.one_shiftLeft, Nat.testBit_two_pow]

/-- Each word adds its level. -/
theorem foldl_add (options : Options) : ∀ (words : List (List Char)) (s : State),
    let s' := words.foldl (State.add options) s
    s'.buf = s.buf ∧ ∀ i, s'.levels.testBit i = true ↔
      s.levels.testBit i = true ∨ ∃ word ∈ words, ∃ k, level options word = some k ∧ (k : ℕ) = i
  | [], s => by simp
  | word :: words, s => by
    obtain ⟨hbuf, hlevels⟩ := foldl_add options words (s.add options word)
    refine ⟨hbuf, fun i => ?_⟩
    have hfirst : (s.add options word).levels.testBit i = true ↔
        s.levels.testBit i = true ∨ ∃ k, level options word = some k ∧ (k : ℕ) = i := by
      rw [State.add]
      cases level options word with
      | none => simp
      | some k =>
        simp only [testBit_bitSet, Bool.or_eq_true, decide_eq_true_iff, Option.some.injEq,
          exists_eq_left']
    rw [List.foldl_cons, hlevels, hfirst, or_assoc]
    refine or_congr_right ⟨?_, ?_⟩
    · rintro (h | ⟨w, hw, h⟩)
      · exact ⟨word, List.mem_cons_self, h⟩
      · exact ⟨w, List.mem_cons_of_mem word hw, h⟩
    · rintro ⟨w, hw, h⟩
      rcases List.mem_cons.mp hw with rfl | hw
      · exact .inl h
      · exact .inr ⟨w, hw, h⟩

/-- MAIN: whatever the six options and the text, the levels set are the first one and those whose option, and
    no other, a word between commas is a prefix of. The text is as it was, and `print` makes no difference. -/
theorem init_reads (options : Options) (dstring : List Char) (print : Bool) (h : NUL ∉ dstring) :
    ∃ s, init options dstring print = some s ∧ s.buf = dstring ++ [NUL] ∧
      ∀ i, s.levels.testBit i = true ↔ i = Basic ∨ ∃ word ∈ dstring.splitOn comma,
        ∃ k : Fin MaxLevel, (∀ j, word <+: options j ↔ j = k) ∧ (k : ℕ) = i := by
  have hloop := loop_eq options print (dstring.length + 1) [] dstring
    ⟨dstring ++ [NUL], bitSet 0 Basic⟩ rfl h (Nat.lt_succ_self _)
  rw [List.length_nil, Nat.zero_add] at hloop
  obtain ⟨hbuf, hlevels⟩ := foldl_add options (dstring.splitOn comma)
    ⟨dstring ++ [NUL], bitSet 0 Basic⟩
  refine ⟨_, hloop, hbuf, fun i => ?_⟩
  rw [hlevels, testBit_bitSet, Nat.zero_testBit, Bool.false_or, decide_eq_true_iff, eq_comm]
  simp only [level_eq_some]

/-- `DebugOptions` of `Bootstrap.cc`. -/
def DebugOptions : Options :=
  !["basic".toList, "blocking".toList, "polling".toList, "scheduling".toList, "threads".toList,
    "warning".toList]

/-- `b` is of two options, the empty word of all, and `tx` of none. -/
theorem init_reads_words : ∃ s, init DebugOptions "po,b,,tx,thr".toList false = some s ∧
    s.buf = "po,b,,tx,thr".toList ++ [NUL] ∧ (s.levels.testBit 2 = true ∧ s.levels.testBit 4 = true) ∧
      s.levels.testBit 1 = false := by
  obtain ⟨s, hs, hbuf, -⟩ := init_reads DebugOptions "po,b,,tx,thr".toList false (by decide)
  have hinit : init DebugOptions "po,b,,tx,thr".toList false =
      some ⟨"po,b,,tx,thr".toList ++ [NUL], 21⟩ := by
    decide
  have hlevel : s.levels = 21 := by
    rw [hinit, Option.some.injEq] at hs
    rw [← hs]
  refine ⟨s, hs, hbuf, ⟨?_, ?_⟩, ?_⟩ <;> rw [hlevel] <;> decide

end Libfibre.DBG
