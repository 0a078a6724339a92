/-
Text that can be taken apart again.

A text is made by putting pieces next to each other, and to read it is to find out where
each piece ends.  There are two ways to know.  A piece that keeps to an alphabet ends where
a character comes that is not in the alphabet, so two texts that start with such pieces and
are equal start with the same piece.  And pieces that a mark stands between, and that do not
have the mark in them, are what is left when the text is split at the marks: the lines of a
text, the words of a line.
-/

namespace Codegen.Text

/-! ### Where a piece ends -/

/-- What two rows have in front, up to the first item that fails a test, is the same if they are. -/
theorem append_inj_of_head? {α : Type} {p : α → Bool} {xs ys us vs : List α}
    (hx : ∀ x ∈ xs, p x = true) (hy : ∀ y ∈ ys, p y = true) (hu : ∀ u ∈ us.head?, p u = false)
    (hv : ∀ v ∈ vs.head?, p v = false) (h : xs ++ us = ys ++ vs) : xs = ys ∧ us = vs := by
  have hnone : ∀ {ws : List α}, (∀ w ∈ ws.head?, p w = false) → ws.takeWhile p = [] := by
    intro ws hws
    cases ws with
    | nil => rfl
    | cons w ws => simp [hws w rfl]
  have hfirst : xs = ys := by
    have htake := congrArg (List.takeWhile p) h
    rwa [List.takeWhile_append_of_pos hx, List.takeWhile_append_of_pos hy, hnone hu, hnone hv,
      List.append_nil, List.append_nil] at htake
  subst hfirst
  exact ⟨rfl, List.append_cancel_left h⟩

section Alphabet

variable {p q : Char → Bool} {a b s u v : String}

/-- Every character of the text is in the alphabet `p`. -/
def Over (p : Char → Bool) (s : String) : Prop := ∀ c ∈ s.toList, p c = true

/-- The text is empty or starts with a character that is not in the alphabet `p`. -/
def Stops (p : Char → Bool) (s : String) : Prop := ∀ c ∈ s.toList.head?, p c = false

-- Both are decided by looking at the text, and not at all characters there are.
instance : Decidable (Over p s) := List.decidableBAll (fun c => p c = true) s.toList

instance : Decidable (Stops p s) := Option.decidableForallMem s.toList.head?

theorem Over.mono (h : Over p s) (hpq : ∀ c, p c = true → q c = true) : Over q s :=
  fun c hc => hpq c (h c hc)

/-- A character that is not in the alphabet does not occur. -/
theorem Over.avoids {mark : Char} (h : Over p s) (hmark : p mark = false) : Over (· != mark) s := by
  refine h.mono fun c hc => ?_
  rw [bne_iff_ne]
  rintro rfl
  rw [hmark] at hc
  cases hc

@[simp] theorem over_append : Over p (a ++ b) ↔ Over p a ∧ Over p b := by
  simp only [Over, String.toList_append, List.mem_append, or_imp, forall_and]

theorem over_join {pieces : List String} (h : ∀ s ∈ pieces, Over p s) :
    Over p (String.join pieces) := by
  intro c hc
  rw [String.toList_join, List.mem_flatMap] at hc
  obtain ⟨s, hs, hc⟩ := hc
  exact h s hs c hc

theorem over_intercalate (hs : Over p s) :
    ∀ {pieces : List String}, (∀ a ∈ pieces, Over p a) → Over p (s.intercalate pieces)
  | [], _ => by simp [Over]
  | [a], h => by simpa using h a List.mem_cons_self
  | a :: b :: pieces, h => by
      rw [String.intercalate_cons_cons, over_append, over_append]
      exact ⟨⟨h a List.mem_cons_self, hs⟩,
        over_intercalate hs fun c hc => h c (List.mem_cons_of_mem a hc)⟩

/-- Equal texts start with the same piece of an alphabet, if it ends where the alphabet does. -/
theorem append_inj_of_stops (ha : Over p a) (hb : Over p b) (hu : Stops p u) (hv : Stops p v)
    (h : a ++ u = b ++ v) : a = b ∧ u = v := by
  have hlist := congrArg String.toList h
  rw [String.toList_append, String.toList_append] at hlist
  obtain ⟨hab, huv⟩ := append_inj_of_head? ha hb hu hv hlist
  exact ⟨String.toList_injective hab, String.toList_injective huv⟩

/-- What comes behind a piece of an alphabet. -/
theorem dropWhile_append_of_stops (ha : Over p a) (hu : Stops p u) :
    (a.toList ++ u.toList).dropWhile p = u.toList := by
  rw [List.dropWhile_append_of_pos ha]
  unfold Stops at hu
  generalize u.toList = cs at hu ⊢
  cases cs with
  | nil => rfl
  | cons c cs => simp [hu c rfl]

end Alphabet

/-! ### Numbers and names -/

section Names

variable {m n : Nat} {u v : String}

theorem over_isDigit (n : Nat) : Over Char.isDigit (toString n) := by
  intro c hc
  rw [Nat.toString_eq_ofList_toDigits, String.toList_ofList] at hc
  exact Nat.isDigit_of_mem_toDigits (by decide) (by decide) hc

theorem numeral_inj (h : toString m = toString n) : m = n := by
  have hvalue := congrArg (fun s : String => Nat.ofDigitChars 10 s.toList 0) h
  simpa [Nat.toString_eq_ofList_toDigits] using hvalue

/-- A number in front of something that is not a digit can be read. -/
theorem numeral_append_inj (hu : Stops Char.isDigit u) (hv : Stops Char.isDigit v)
    (h : toString m ++ u = toString n ++ v) : m = n ∧ u = v := by
  obtain ⟨hmn, huv⟩ := append_inj_of_stops (over_isDigit m) (over_isDigit n) hu hv h
  exact ⟨numeral_inj hmn, huv⟩

/-- The characters of names: letters, digits and two signs. -/
def isNameChar (c : Char) : Bool := c.isAlphanum || c == '_' || c == '#'

/-- Text in which only such characters stand. -/
abbrev IsName (s : String) : Prop := Over isNameChar s

theorem isName_numeral (n : Nat) : IsName (toString n) := by
  refine (over_isDigit n).mono fun c hc => ?_
  simp [isNameChar, Char.isAlphanum, hc]

end Names

/-! ### Splitting at marks -/

/-- The pieces of a text between the places where `mark` stands. -/
def split (mark : Char) (text : String) : List String :=
  (text.toList.splitOn mark).map String.ofList

/-- The lines of a text without their ends; behind the last end stands an empty line. -/
def lines (text : String) : List String := split '\n' text

/-- The words of a line, between which single blanks stand. -/
def words (line : String) : List String := split ' ' line

section Split

variable {mark : Char} {a b sep : String}

theorem split_of_over (h : Over (· != mark) a) : split mark a = [a] := by
  have hmark : mark ∉ a.toList := fun hc => by simpa using h mark hc
  simp [split, List.splitOn_eq_singleton hmark]

theorem split_append (hsep : sep.toList = [mark]) (h : Over (· != mark) a) :
    split mark (a ++ (sep ++ b)) = a :: split mark b := by
  have hmark : mark ∉ a.toList := fun hc => by simpa using h mark hc
  simp [split, hsep, List.splitOn_append_cons_self_of_not_mem hmark]

end Split

/-- Every line with its end. -/
def unlines (ls : List String) : String := String.join (ls.map (· ++ "\n"))

/-- Every word with a blank in front. -/
def spaced (ws : List String) : String := String.join (ws.map (" " ++ ·))

theorem unlines_cons (l : String) (ls : List String) :
    unlines (l :: ls) = l ++ ("\n" ++ unlines ls) := by
  simp [unlines, String.join_cons, String.append_assoc]

theorem unlines_append (ls ms : List String) : unlines (ls ++ ms) = unlines ls ++ unlines ms := by
  simp [unlines, String.join_append]

theorem spaced_cons (w : String) (ws : List String) :
    spaced (w :: ws) = " " ++ (w ++ spaced ws) := by
  simp [spaced, String.join_cons, String.append_assoc]

theorem spaced_append (ws vs : List String) : spaced (ws ++ vs) = spaced ws ++ spaced vs := by
  simp [spaced, String.join_append]

theorem over_spaced {p : Char → Bool} {ws : List String} (hblank : p ' ' = true)
    (h : ∀ w ∈ ws, Over p w) : Over p (spaced ws) := by
  refine over_join fun piece hpiece => ?_
  obtain ⟨w, hw, rfl⟩ := List.mem_map.mp hpiece
  exact over_append.mpr ⟨by simpa [Over] using hblank, h w hw⟩

theorem lines_unlines {ls : List String} (h : ∀ l ∈ ls, Over (· != '\n') l) :
    lines (unlines ls) = ls ++ [""] := by
  induction ls with
  | nil => rfl
  | cons l ls ih =>
      rw [unlines_cons, lines, split_append rfl (h l List.mem_cons_self)]
      exact congrArg (l :: ·) (ih fun m hm => h m (List.mem_cons_of_mem l hm))

theorem words_spaced {w : String} {ws : List String} (hw : Over (· != ' ') w)
    (h : ∀ v ∈ ws, Over (· != ' ') v) : words (w ++ spaced ws) = w :: ws := by
  induction ws generalizing w with
  | nil =>
      rw [show spaced [] = "" from rfl, String.append_empty, words]
      exact split_of_over hw
  | cons v vs ih =>
      rw [spaced_cons, words, split_append rfl hw]
      exact congrArg (w :: ·)
        (ih (h v List.mem_cons_self) fun x hx => h x (List.mem_cons_of_mem v hx))

/-- Texts of the same lines have the same lines. -/
theorem unlines_inj {ls ms : List String} (hl : ∀ l ∈ ls, Over (· != '\n') l)
    (hm : ∀ m ∈ ms, Over (· != '\n') m) (h : unlines ls = unlines ms) : ls = ms := by
  have hlines := congrArg lines h
  rw [lines_unlines hl, lines_unlines hm] at hlines
  exact List.append_cancel_right hlines

end Codegen.Text
