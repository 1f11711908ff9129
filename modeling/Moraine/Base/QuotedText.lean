-- SUMMARY: Quoted names and lists separated outside quotes, with their round trips.
import Mathlib

/-!
# Quoted text

Names written between quotes with embedded quotes doubled, and texts joined by a separator that counts
only outside quotes. Both are given over an arbitrary alphabet with a quote and a separator symbol. Reading
a quoted name back gives the name and what follows it; splitting a join of closed texts gives the texts.
-/

namespace QuotedText

variable {α : Type*} [DecidableEq α]

/-! ## Quoted names -/

/-- The name with every quote doubled. -/
def escape (q : α) : List α → List α
  | [] => []
  | c :: rest => if c = q then q :: c :: escape q rest else c :: escape q rest

/-- The name between quotes, embedded quotes doubled. -/
def quote (q : α) (name : List α) : List α := q :: (escape q name ++ [q])

/-- Reads the rest of a quoted name after its opening quote: the name and what follows the closing quote, or
    `none` when there is no closing quote. -/
def unquoteRest (q : α) : List α → Option (List α × List α)
  | [] => none
  | [c] => if c = q then some ([], []) else none
  | c :: d :: rest =>
    if c = q then
      if d = q then (unquoteRest q rest).map fun r => (q :: r.1, r.2) else some ([], d :: rest)
    else (unquoteRest q (d :: rest)).map fun r => (c :: r.1, r.2)

/-- Reads one quoted name at the start of a text. -/
def unquote (q : α) : List α → Option (List α × List α)
  | [] => none
  | c :: rest => if c = q then unquoteRest q rest else none

theorem unquoteRest_cons_of_ne {q c : α} (h : c ≠ q) {rest : List α} (hne : rest ≠ []) :
    unquoteRest q (c :: rest) = (unquoteRest q rest).map fun r => (c :: r.1, r.2) := by
  cases rest with
  | nil => exact absurd rfl hne
  | cons d rest => simp [unquoteRest, h]

theorem unquoteRest_escape (q : α) (name : List α) {rest : List α} (h : rest.head? ≠ some q) :
    unquoteRest q (escape q name ++ q :: rest) = some (name, rest) := by
  induction name with
  | nil =>
    cases rest with
    | nil => simp [escape, unquoteRest]
    | cons d rest =>
      have hd : d ≠ q := fun hd => h (by rw [hd]; rfl)
      simp [escape, unquoteRest, hd]
  | cons c name ih =>
    by_cases hc : c = q
    · subst hc
      simp [escape, unquoteRest, ih]
    · have hne : escape q name ++ q :: rest ≠ [] := by simp
      simp [escape, hc, unquoteRest_cons_of_ne hc hne, ih]

/-- A quoted name reads back, whatever follows it but a quote. -/
theorem unquote_quote (q : α) (name rest : List α) (h : rest.head? ≠ some q) :
    unquote q (quote q name ++ rest) = some (name, rest) := by
  simpa [quote, unquote] using unquoteRest_escape q name h

/-! ## Lists separated outside quotes -/

/-- Whether the text is inside quotes after one more symbol. -/
def toggle (q : α) (inside : Bool) (c : α) : Bool := if c = q then !inside else inside

/-- Splits at every separator outside quotes, from inside or outside quotes. -/
def splitOutside (q sep : α) : Bool → List α → List (List α)
  | _, [] => [[]]
  | inside, c :: rest =>
    if c = sep ∧ inside = false then [] :: splitOutside q sep inside rest
    else (splitOutside q sep (toggle q inside c) rest).modifyHead (c :: ·)

/-- Whether the text has no separator outside quotes, and where it ends when it starts `inside`. -/
def Closes (q sep : α) : Bool → List α → Bool → Prop
  | inside, [], after => inside = after
  | inside, c :: rest, after => ¬ (c = sep ∧ inside = false) ∧ Closes q sep (toggle q inside c) rest after

/-- A text that starts and ends outside quotes and has no separator outside quotes. -/
def Closed (q sep : α) (text : List α) : Prop := Closes q sep false text false

variable {q sep : α}

theorem Closes.append {a b c : Bool} {s t : List α} (hs : Closes q sep a s b) (ht : Closes q sep b t c) :
    Closes q sep a (s ++ t) c := by
  induction s generalizing a with
  | nil =>
    obtain rfl : a = b := hs
    exact ht
  | cons d s ih => exact ⟨hs.1, ih hs.2⟩

theorem Closed.append {s t : List α} (hs : Closed q sep s) (ht : Closed q sep t) : Closed q sep (s ++ t) :=
  Closes.append hs ht

/-- Symbols that are neither the quote nor the separator leave a text closed. -/
theorem Closed.of_plain {s : List α} (h : ∀ c ∈ s, c ≠ q ∧ c ≠ sep) : Closed q sep s := by
  induction s with
  | nil => rfl
  | cons c s ih =>
    have hc := h c List.mem_cons_self
    refine ⟨fun hsep => hc.2 hsep.1, ?_⟩
    rw [toggle, if_neg hc.1]
    exact ih fun d hd => h d (List.mem_cons_of_mem c hd)

theorem closes_escape (hq : q ≠ sep) (name : List α) : Closes q sep true (escape q name) true := by
  induction name with
  | nil => rfl
  | cons c name ih =>
    by_cases hc : c = q
    · -- Between the two quotes the text is outside for a moment, so the quote must not separate.
      subst hc
      have hpair : Closes c sep true [c, c] true := ⟨by simp, by simp [toggle, hq], by simp [toggle, Closes]⟩
      simpa [escape] using hpair.append ih
    · simp only [escape, if_neg hc]
      exact ⟨by simp, by simpa [toggle, hc] using ih⟩

/-- A quoted name is closed, whatever it holds. -/
theorem closed_quote (hq : q ≠ sep) (name : List α) : Closed q sep (quote q name) := by
  have hopen : Closes q sep false [q] true := ⟨fun h => hq h.1, by simp [toggle, Closes]⟩
  have hclose : Closes q sep true [q] false := ⟨by simp, by simp [toggle, Closes]⟩
  exact hopen.append ((closes_escape hq name).append hclose)

theorem splitOutside_of_closes {inside after : Bool} {text : List α} (h : Closes q sep inside text after)
    (rest : List α) :
    splitOutside q sep inside (text ++ rest) = (splitOutside q sep after rest).modifyHead (text ++ ·) := by
  induction text generalizing inside with
  | nil =>
    obtain rfl : inside = after := h
    cases hrest : splitOutside q sep inside rest <;> simp [hrest]
  | cons c text ih =>
    rw [List.cons_append, splitOutside, if_neg h.1, ih h.2]
    cases splitOutside q sep after rest <;> simp

/-- Splitting a join of closed texts gives the texts. -/
theorem splitOutside_intercalate {text : List α} {texts : List (List α)}
    (h : ∀ t ∈ text :: texts, Closed q sep t) :
    splitOutside q sep false ([sep].intercalate (text :: texts)) = text :: texts := by
  induction texts generalizing text with
  | nil =>
    have htext := splitOutside_of_closes (h text List.mem_cons_self) []
    simpa [List.intercalate, splitOutside] using htext
  | cons next texts ih =>
    have htext := splitOutside_of_closes (h text List.mem_cons_self)
      (sep :: [sep].intercalate (next :: texts))
    have hrest := ih fun t ht => h t (List.mem_cons_of_mem text ht)
    rw [splitOutside, if_pos ⟨rfl, rfl⟩, hrest] at htext
    simpa [List.intercalate] using htext

/-- The pieces of a text between its separators outside quotes: each but the last ends outside quotes. -/
def Pieces (q sep : α) : Bool → List (List α) → Prop
  | _, [] => False
  | inside, [piece] => ∃ after, Closes q sep inside piece after
  | inside, piece :: pieces => Closes q sep inside piece false ∧ Pieces q sep false pieces

/-- Splitting any text gives its pieces. -/
theorem splitOutside_pieces (inside : Bool) (text : List α) :
    Pieces q sep inside (splitOutside q sep inside text) ∧
      [sep].intercalate (splitOutside q sep inside text) = text := by
  induction text generalizing inside with
  | nil => exact ⟨⟨inside, rfl⟩, rfl⟩
  | cons c text ih =>
    rw [splitOutside]
    split
    case isTrue hc =>
      obtain ⟨rfl, rfl⟩ := hc
      obtain ⟨hpieces, hjoin⟩ := ih false
      cases hsplit : splitOutside q c false text with
      | nil => simp [hsplit, Pieces] at hpieces
      | cons piece pieces =>
        rw [hsplit] at hpieces hjoin
        exact ⟨⟨rfl, hpieces⟩, by simpa [List.intercalate] using hjoin⟩
    case isFalse hc =>
      obtain ⟨hpieces, hjoin⟩ := ih (toggle q inside c)
      rcases hsplit : splitOutside q sep (toggle q inside c) text with _ | ⟨piece, _ | ⟨next, pieces⟩⟩
      · simp [hsplit, Pieces] at hpieces
      · rw [hsplit] at hpieces hjoin
        obtain ⟨after, hpiece⟩ := hpieces
        exact ⟨⟨after, hc, hpiece⟩, by simpa [List.intercalate] using hjoin⟩
      · rw [hsplit] at hpieces hjoin
        exact ⟨⟨⟨hc, hpieces.1⟩, hpieces.2⟩, by simpa [List.intercalate] using hjoin⟩

/-! ## The first separator -/

/-- What stands before and after the first separator. -/
def splitOnce (sep : α) : List α → Option (List α × List α)
  | [] => none
  | c :: rest => if c = sep then some ([], rest) else (splitOnce sep rest).map fun r => (c :: r.1, r.2)

theorem splitOnce_append {s : List α} (h : sep ∉ s) (rest : List α) :
    splitOnce sep (s ++ sep :: rest) = some (s, rest) := by
  induction s with
  | nil => simp [splitOnce]
  | cons c s ih =>
    have hc : c ≠ sep := fun hc => h (hc ▸ List.mem_cons_self)
    simp [splitOnce, hc, ih fun hs => h (List.mem_cons_of_mem c hs)]

end QuotedText
