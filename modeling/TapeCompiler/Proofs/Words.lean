import TapeCompiler.Proofs.LineBreaks

/-!
# Reading a text back

`textWords` cuts a text into lines and every line into words. Blanks and commas stand
between words, so neither the indentation nor the commas of a line matter. What is
between two gaps can be read on its own (`wordsOf_append`). `Spells` says of a text on one
line what its words are, and is found piece by piece. `textWords_linesText` says that the
words of lines are those of their contents.

`linesWithin` takes those lines that are between two others. `afterName?` and
`beforeColon?` take a word apart further, and `number?` and `integer?` read back the
numbers that a text was written with.
-/

namespace TapeCompiler

/-- Whether a character stands between words. -/
def isGap (c : Char) : Bool :=
  c == ' ' || c == ','

/-- The words of a line. -/
def wordsOf (line : String) : List String :=
  ((line.toList.splitOnP isGap).filter (!·.isEmpty)).map String.ofList

/-- The words of a text, line by line. -/
def textWords (text : String) : List (List String) :=
  (linesOf text).map wordsOf

/-- The lines behind the first one that starts with a word, up to the line `last`. -/
def linesWithin (first : String) (last : List String) (lines : List (List String)) :
    List (List String) :=
  (lines.dropWhile (·.head? != some first)).tail.takeWhile (· != last)

/-- Whether a character can stand in a word. -/
def isInner (c : Char) : Bool :=
  !isGap c && c != '\n' && c != '\r'

/-- A text is one word. -/
def IsWord (s : String) : Prop :=
  s ≠ "" ∧ ∀ c ∈ s.toList, isInner c = true

def EndsInGap (s : String) : Prop :=
  s.toList.getLast?.any isGap = true

def StartsInGap (s : String) : Prop :=
  s.toList.head?.any isGap = true

/-- A text breaks no line. -/
def OnOneLine (s : String) : Prop :=
  ∀ c ∈ s.toList, c ≠ '\n' ∧ c ≠ '\r'

instance (s : String) : Decidable (IsWord s) :=
  have : Decidable (∀ c ∈ s.toList, isInner c = true) := List.decidableBAll _ _
  inferInstanceAs (Decidable (s ≠ "" ∧ ∀ c ∈ s.toList, isInner c = true))

instance (s : String) : Decidable (EndsInGap s) :=
  inferInstanceAs (Decidable (s.toList.getLast?.any isGap = true))

instance (s : String) : Decidable (StartsInGap s) :=
  inferInstanceAs (Decidable (s.toList.head?.any isGap = true))

instance (s : String) : Decidable (OnOneLine s) :=
  List.decidableBAll (fun c => c ≠ '\n' ∧ c ≠ '\r') s.toList

/-- A text is on one line, and these are its words. -/
structure Spells (text : String) (words : List String) : Prop where
  onOneLine : OnOneLine text
  wordsOf_eq : wordsOf text = words

instance (text : String) (words : List String) : Decidable (Spells text words) :=
  decidable_of_iff (OnOneLine text ∧ wordsOf text = words)
    ⟨fun ⟨h, heq⟩ => ⟨h, heq⟩, fun ⟨h, heq⟩ => ⟨h, heq⟩⟩

/-- The rest of a word behind a name at its front. -/
def afterName? (name word : String) : Option String :=
  if name.toList <+: word.toList then
    some (String.ofList (word.toList.drop name.toList.length))
  else none

/-- A word without the colon at its end. -/
def beforeColon? (word : String) : Option String :=
  if word.toList.getLast? = some ':' then some (String.ofList word.toList.dropLast) else none

/-- The number that a word of digits is. -/
def number? (word : String) : Option Nat :=
  if word ≠ "" ∧ word.toList.all Char.isDigit then
    some (Nat.ofDigitChars 10 word.toList 0)
  else none

def integer? (word : String) : Option Int :=
  match afterName? "-" word with
  | some digits => (number? digits).map fun n => -Int.ofNat n
  | none => (number? word).map Int.ofNat

@[simp] theorem afterName?_append (name s : String) : afterName? name (name ++ s) = some s := by
  rw [afterName?, String.toList_append, if_pos (List.prefix_append _ _), List.drop_left,
    String.ofList_toList]

/-- No name is found behind another one if neither is at the front of the other. -/
theorem afterName?_append_eq_none {name other : String}
    (h : ¬name.toList <+: other.toList ∧ ¬other.toList <+: name.toList) (s : String) :
    afterName? name (other ++ s) = none := by
  refine if_neg fun hfront => ?_
  rw [String.toList_append] at hfront
  exact (List.prefix_or_prefix_of_prefix hfront (List.prefix_append _ _)).elim h.1 h.2

@[simp] theorem beforeColon?_append (s : String) : beforeColon? (s ++ ":") = some s := by
  have h : (s ++ ":").toList = s.toList ++ [':'] := String.toList_append
  rw [beforeColon?, h, if_pos List.getLast?_concat, List.dropLast_concat, String.ofList_toList]

section Words

variable {s t w : String}

/-- What stands on both sides of a gap is read on its own. -/
theorem wordsOf_append (h : EndsInGap s) (t : String) :
    wordsOf (s ++ t) = wordsOf s ++ wordsOf t := by
  rw [EndsInGap, Option.any_eq_true] at h
  obtain ⟨gap, hlast, hgap⟩ := h
  obtain ⟨front, hfront⟩ := List.getLast?_eq_some_iff.mp hlast
  have hcut : (front ++ [gap]).splitOnP isGap = front.splitOnP isGap ++ [[]] :=
    List.splitOnP_append_cons front [] hgap
  rw [wordsOf, wordsOf, wordsOf, String.toList_append, hfront, hcut, List.append_assoc,
    List.singleton_append, List.splitOnP_append_cons front t.toList hgap]
  simp

theorem endsInGap_append (s : String) (h : EndsInGap t) : EndsInGap (s ++ t) := by
  rw [EndsInGap, Option.any_eq_true] at h ⊢
  obtain ⟨gap, hlast, hgap⟩ := h
  exact ⟨gap, by simp [hlast], hgap⟩

theorem isInner_iff {c : Char} : isInner c = true ↔ isGap c = false ∧ c ≠ '\n' ∧ c ≠ '\r' := by
  simp [isInner, and_assoc]

theorem wordsOf_word (h : IsWord w) : wordsOf w = [w] := by
  have hcut : w.toList.splitOnP isGap = [w.toList] :=
    List.splitOnP_eq_singleton fun c hc => (isInner_iff.mp (h.2 c hc)).1
  have hne : w.toList ≠ [] := by simpa using h.1
  rw [wordsOf, hcut]
  simp [hne]

theorem wordsOf_gap_append {gap : Char} (h : isGap gap = true) (text : List Char) :
    wordsOf (String.ofList (gap :: text)) = wordsOf (String.ofList text) := by
  have hcut : (gap :: text).splitOnP isGap = [] :: text.splitOnP isGap :=
    List.splitOnP_append_cons [] text h
  simp [wordsOf, hcut]

/-- What stands on both sides of a gap is read on its own, if the gap comes second. -/
theorem wordsOf_append_of_startsInGap (s : String) (h : StartsInGap t) :
    wordsOf (s ++ t) = wordsOf s ++ wordsOf t := by
  rw [StartsInGap, Option.any_eq_true] at h
  obtain ⟨gap, hhead, hgap⟩ := h
  obtain ⟨rest, hrest⟩ := List.head?_eq_some_iff.mp hhead
  have htext : t = String.ofList (gap :: rest) := by rw [← hrest, String.ofList_toList]
  have hcut : (s.toList ++ gap :: rest).splitOnP isGap =
      s.toList.splitOnP isGap ++ rest.splitOnP isGap :=
    List.splitOnP_append_cons s.toList rest hgap
  rw [htext, wordsOf_gap_append hgap, wordsOf, wordsOf, wordsOf, String.toList_append,
    String.toList_ofList, String.toList_ofList, hcut]
  simp

theorem wordsOf_comma (s : String) (h : IsWord w) :
    wordsOf (s ++ ", " ++ w) = wordsOf s ++ [w] := by
  have hgap : EndsInGap ", " := by decide
  have hcomma : wordsOf (s ++ ", ") = wordsOf s := by
    have hsplit : (s.toList ++ [',', ' ']).splitOnP isGap =
        s.toList.splitOnP isGap ++ [[], []] := by
      rw [List.splitOnP_append_cons s.toList [' '] rfl]
      rfl
    rw [wordsOf, wordsOf, String.toList_append]
    simp [hsplit]
  rw [wordsOf_append (endsInGap_append s hgap), hcomma, wordsOf_word h]

theorem head?_append {c : Char} (h : s.toList.head? = some c) (t : String) :
    (s ++ t).toList.head? = some c := by
  rw [String.toList_append, List.head?_append, h, Option.some_or]

theorem isWord_append (hs : IsWord s) (ht : IsWord t) : IsWord (s ++ t) := by
  refine ⟨by simp [hs.1], ?_⟩
  rw [String.toList_append]
  exact List.forall_mem_append.mpr ⟨hs.2, ht.2⟩

theorem IsWord.onOneLine (h : IsWord w) : OnOneLine w :=
  fun c hc => (isInner_iff.mp (h.2 c hc)).2

theorem onOneLine_append (hs : OnOneLine s) (ht : OnOneLine t) : OnOneLine (s ++ t) := by
  rw [OnOneLine, String.toList_append]
  exact List.forall_mem_append.mpr ⟨hs, ht⟩

theorem IsWord.spells (h : IsWord w) : Spells w [w] :=
  ⟨h.onOneLine, wordsOf_word h⟩

/-- The words of two texts are those of one behind the other if a gap is between them. -/
theorem Spells.append {words words' : List String} (hs : Spells s words)
    (ht : Spells t words') (hgap : EndsInGap s ∨ StartsInGap t) :
    Spells (s ++ t) (words ++ words') := by
  refine ⟨onOneLine_append hs.onOneLine ht.onOneLine, ?_⟩
  rw [← hs.wordsOf_eq, ← ht.wordsOf_eq]
  rcases hgap with hgap | hgap
  · exact wordsOf_append hgap t
  · exact wordsOf_append_of_startsInGap s hgap

/-- A word behind a gap is one more word. -/
theorem Spells.append_word {words : List String} (hs : Spells s words) (hgap : EndsInGap s)
    (hw : IsWord w) : Spells (s ++ w) (words ++ [w]) :=
  ⟨onOneLine_append hs.onOneLine hw.onOneLine,
    by rw [wordsOf_append hgap, hs.wordsOf_eq, wordsOf_word hw]⟩

/-- A word behind a comma is one more word. -/
theorem Spells.comma {words : List String} (hs : Spells s words) (hw : IsWord w) :
    Spells (s ++ ", " ++ w) (words ++ [w]) :=
  ⟨onOneLine_append (onOneLine_append hs.onOneLine (by decide)) hw.onOneLine,
    by rw [wordsOf_comma s hw, hs.wordsOf_eq]⟩

/-- The comma and the word may be written as one. -/
theorem Spells.comma_word {words : List String} {rest : String} (hs : Spells s words)
    (hrest : rest = ", " ++ w) (hw : IsWord w) : Spells (s ++ rest) (words ++ [w]) := by
  rw [hrest, ← String.append_assoc]
  exact hs.comma hw

/-- The comma may be written with the front of the word. -/
theorem Spells.comma_append {words : List String} {rest u v : String} (hs : Spells s words)
    (hrest : rest = ", " ++ u) (hw : IsWord (u ++ v)) :
    Spells (s ++ rest ++ v) (words ++ [u ++ v]) := by
  have htext : s ++ rest ++ v = s ++ ", " ++ (u ++ v) := by
    simp only [hrest, String.append_assoc]
  rw [htext]
  exact hs.comma hw

end Words

section Numbers

theorem isDigit_of_mem_toString {n : Nat} {c : Char} (h : c ∈ (toString n).toList) :
    c.isDigit = true := by
  have hn : toString n = String.ofList (Nat.toDigits 10 n) := Nat.toString_eq_ofList_toDigits
  rw [hn, String.toList_ofList] at h
  exact Nat.isDigit_of_mem_toDigits (b := 10) (by decide) (by decide) h

theorem toString_ne_empty (n : Nat) : toString n ≠ "" := by
  have hn : toString n = String.ofList (Nat.toDigits 10 n) := Nat.toString_eq_ofList_toDigits
  simp [hn, Nat.toDigits_ne_nil]

@[simp] theorem number?_repr (n : Nat) : number? n.repr = some n := by
  have hn : n.repr = String.ofList (Nat.toDigits 10 n) := Nat.toString_eq_ofList_toDigits
  have hdigits : n.repr.toList.all Char.isDigit = true :=
    List.all_eq_true.mpr fun c hc => isDigit_of_mem_toString hc
  rw [number?, if_pos ⟨toString_ne_empty n, hdigits⟩, hn, String.toList_ofList,
    Nat.ofDigitChars_ten_toDigits]

@[simp] theorem integer?_repr (i : Int) : integer? i.repr = some i := by
  cases i with
  | ofNat n =>
      have hsign : afterName? "-" (toString n) = none := by
        refine if_neg fun hfront => ?_
        have hmem : '-' ∈ (toString n).toList := hfront.subset (by decide)
        exact absurd (isDigit_of_mem_toString hmem) (by decide)
      have htext : (Int.ofNat n).repr = toString n := rfl
      rw [htext, integer?, hsign]
      exact congrArg (Option.map Int.ofNat) (number?_repr n)
  | negSucc n =>
      have htext : (Int.negSucc n).repr = "-" ++ toString (n + 1) := rfl
      have hdigits := number?_repr (n + 1)
      rw [htext, integer?, afterName?_append]
      exact congrArg (Option.map fun n => -Int.ofNat n) hdigits

theorem eq_of_toString_eq {m n : Nat} (h : toString m = toString n) : m = n :=
  Option.some.inj ((number?_repr m).symm.trans ((congrArg number? h).trans (number?_repr n)))

theorem eq_of_toString_int_eq {i j : Int} (h : toString i = toString j) : i = j :=
  Option.some.inj ((integer?_repr i).symm.trans ((congrArg integer? h).trans (integer?_repr j)))

theorem isInner_of_isDigit {c : Char} (h : c.isDigit = true) : isInner c = true := by
  refine isInner_iff.mpr ⟨?_, ?_, ?_⟩
  · refine Bool.eq_false_iff.mpr fun hgap => ?_
    have hc : c = ' ' ∨ c = ',' := by simpa [isGap] using hgap
    rcases hc with rfl | rfl <;> exact absurd h (by decide)
  · rintro rfl
    exact absurd h (by decide)
  · rintro rfl
    exact absurd h (by decide)

theorem isWord_toString (n : Nat) : IsWord (toString n) :=
  ⟨toString_ne_empty n, fun _ hc => isInner_of_isDigit (isDigit_of_mem_toString hc)⟩

theorem isWord_toString_int (i : Int) : IsWord (toString i) := by
  cases i with
  | ofNat n => exact isWord_toString n
  | negSucc n =>
      have hsign : IsWord "-" := by decide
      exact isWord_append hsign (isWord_toString (n + 1))

end Numbers

section Lines

/-- What stands before the first place of an item, and what behind it, is told by the list. -/
theorem eq_of_append_cons_eq {α : Type} {x : α} {u u' v v' : List α} (hu : x ∉ u) (hu' : x ∉ u')
    (h : u ++ x :: v = u' ++ x :: v') : u = u' ∧ v = v' := by
  rcases List.append_eq_append_iff.mp h with ⟨between, rfl, hrest⟩ | ⟨between, rfl, hrest⟩ <;>
    rcases between with _ | ⟨y, between⟩
  · exact ⟨(List.append_nil u).symm, (List.cons_eq_cons.mp hrest).2⟩
  · obtain rfl := (List.cons_eq_cons.mp hrest).1
    simp at hu'
  · exact ⟨List.append_nil u', (List.cons_eq_cons.mp hrest).2.symm⟩
  · obtain rfl := (List.cons_eq_cons.mp hrest).1
    simp at hu

theorem linesFrom_line {line : List Char} (h : ∀ c ∈ line, c ≠ '\n' ∧ c ≠ '\r')
    (rest : List Char) :
    linesFrom [] (line ++ '\n' :: rest) = String.ofList line :: linesFrom [] rest := by
  have hfeed : '\n' ∉ line := fun hmem => (h _ hmem).1 rfl
  have hreturn : line.reverse.head? ≠ some '\r' := fun hhead =>
    (h _ (List.mem_reverse.mp (List.mem_of_head? hhead))).2 rfl
  rw [linesFrom_feed hfeed, List.append_nil, dropReturn_of_head? hreturn, List.reverse_reverse]

theorem wordsOf_indented (count : Nat) (text : String) :
    wordsOf (String.ofList (List.replicate count ' ') ++ text) = wordsOf text := by
  induction count with
  | zero => simp
  | succ count ih =>
      have hfront : String.ofList (List.replicate (count + 1) ' ') ++ text =
          String.ofList (' ' :: (String.ofList (List.replicate count ' ') ++ text).toList) := by
        apply String.toList_inj.mp
        simp [List.replicate_succ]
      rw [hfront, wordsOf_gap_append rfl, String.ofList_toList, ih]

/-- The first line of a text is its content behind some blanks. -/
theorem exists_linesOf_lineText_append {text : String} (h : OnOneLine text) (depth : Nat)
    (rest : String) : ∃ count, linesOf (lineText depth text ++ rest) =
      (String.ofList (List.replicate count ' ') ++ text) :: linesOf rest := by
  obtain ⟨count, hline⟩ : ∃ count,
      lineText depth text = String.ofList (List.replicate count ' ') ++ text ++ "\n" := by
    unfold lineText
    split
    next hempty =>
      obtain rfl : text = "" := by simpa using hempty
      exact ⟨0, rfl⟩
    next => exact ⟨4 * depth, rfl⟩
  have hchars : (lineText depth text ++ rest).toList =
      (List.replicate count ' ' ++ text.toList) ++ '\n' :: rest.toList := by
    simp [hline]
  have hone : ∀ c ∈ List.replicate count ' ' ++ text.toList, c ≠ '\n' ∧ c ≠ '\r' := by
    refine List.forall_mem_append.mpr ⟨fun c hc => ?_, h⟩
    rw [List.eq_of_mem_replicate hc]
    decide
  refine ⟨count, ?_⟩
  rw [linesOf, hchars, linesFrom_line hone, String.ofList_append, String.ofList_toList]
  rfl

theorem textWords_lineText {text : String} (h : OnOneLine text) (depth : Nat)
    (rest : String) :
    textWords (lineText depth text ++ rest) = wordsOf text :: textWords rest := by
  obtain ⟨count, hlines⟩ := exists_linesOf_lineText_append h depth rest
  rw [textWords, hlines, List.map_cons, wordsOf_indented]
  rfl

/-- The words of lines are those of their contents. -/
theorem textWords_linesText_append {α : Type} {write : α → String} {words : α → List String}
    {lines : List (Line α)}
    (h : ∀ content ∈ lines.map Line.content, Spells (write content) (words content))
    (rest : String) :
    textWords (linesText write lines ++ rest) =
      (lines.map Line.content).map words ++ textWords rest := by
  induction lines with
  | nil => simp [linesText]
  | cons line lines ih =>
      rw [List.map_cons] at h
      obtain ⟨hline, hlines⟩ := List.forall_mem_cons.mp h
      rw [List.map_cons, List.map_cons, List.cons_append, ← ih hlines, ← hline.wordsOf_eq,
        ← textWords_lineText hline.onOneLine line.depth]
      simp [linesText, String.append_assoc]

theorem textWords_linesText {α : Type} {write : α → String} {words : α → List String}
    {lines : List (Line α)}
    (h : ∀ content ∈ lines.map Line.content, Spells (write content) (words content)) :
    textWords (linesText write lines) = (lines.map Line.content).map words := by
  have htext := textWords_linesText_append h ""
  rw [String.append_empty] at htext
  exact htext.trans (List.append_nil _)

@[simp] theorem map_content_linesAt {α : Type} (depth : Nat) (contents : List α) :
    (linesAt depth contents).map Line.content = contents := by
  rw [linesAt, List.map_map]
  exact List.map_id contents

theorem linesWithin_append {first : String} {start last : List String}
    {before inner : List (List String)} (hbefore : ∀ words ∈ before, words.head? ≠ some first)
    (hstart : start.head? = some first) (hinner : ∀ words ∈ inner, words ≠ last)
    (rest : List (List String)) :
    linesWithin first last (before ++ start :: (inner ++ last :: rest)) = inner := by
  have hskipped : ∀ words ∈ before, (words.head? != some first) = true :=
    fun words hmem => bne_iff_ne.mpr (hbefore words hmem)
  have hkept : ∀ words ∈ inner, (words != last) = true :=
    fun words hmem => bne_iff_ne.mpr (hinner words hmem)
  rw [linesWithin, List.dropWhile_append_of_pos hskipped,
    List.dropWhile_cons_of_neg (by simp [hstart]), List.tail_cons,
    List.takeWhile_append_of_pos hkept, List.takeWhile_cons_of_neg (by simp), List.append_nil]

/-- Items are read back from lines of words if each is read back from its words. -/
theorem mapM_of_forall {α : Type} {words : α → List String}
    {ofWords? : List String → Option α} {items : List α}
    (h : ∀ item ∈ items, ofWords? (words item) = some item) :
    (items.map words).mapM ofWords? = some items := by
  induction items with
  | nil => rfl
  | cons item items ih =>
      obtain ⟨hitem, hitems⟩ := List.forall_mem_cons.mp h
      simp [List.mapM_cons, hitem, ih hitems]

end Lines

end TapeCompiler
