import Dataflow.Program.Source
import Mathlib.Data.List.Chain

/-!
# Lexemes

Source text can be cut into words, operators and brackets with what stands between them, and in
one way only. Brackets are one lexeme together with the texts inside, so that the lexemes of a text
are those outside all brackets; what is inside is cut in its turn.

* `Lexeme`, `textOf`: the pieces, and the text that they make up;
* `Whole`: texts that may stand between brackets or commas, as all texts made of lexemes may
  (`Lexical.whole`);
* `textOf_inj`: the text tells the lexemes.
-/

namespace Dataflow

/-! ### Whole texts -/

/-- How many brackets are open after a character, with `depth` open before it. There is no answer
    if a bracket is closed that is not open or if a comma stands outside all brackets. -/
def openAfterChar (depth : Nat) (c : Char) : Option Nat :=
  if c ∈ ['(', '['] then some (depth + 1)
  else if c ∈ [')', ']'] then (if depth = 0 then none else some (depth - 1))
  else if c = ',' ∧ depth = 0 then none
  else some depth

/-- How many brackets are open after a text. -/
def openAfter (depth : Nat) (u : List Char) : Option Nat := u.foldlM openAfterChar depth

/-- A text that closes all the brackets it opens and has commas only between them. -/
def Whole (u : List Char) : Prop := openAfter 0 u = some 0

theorem openAfter_cons (depth : Nat) (c : Char) (u : List Char) :
    openAfter depth (c :: u) = (openAfterChar depth c).bind (openAfter · u) := List.foldlM_cons

theorem openAfter_append (depth : Nat) (u v : List Char) :
    openAfter depth (u ++ v) = (openAfter depth u).bind (openAfter · v) := List.foldlM_append

theorem openAfterChar_add {depth depth' : Nat} {c : Char} (h : openAfterChar depth c = some depth')
    (k : Nat) : openAfterChar (depth + k) c = some (depth' + k) := by
  unfold openAfterChar at h ⊢
  grind

/-- Brackets around a text do not change what it opens and closes. -/
theorem openAfter_add {depth depth' : Nat} {u : List Char} (h : openAfter depth u = some depth')
    (k : Nat) : openAfter (depth + k) u = some (depth' + k) := by
  induction u generalizing depth with
  | nil =>
    obtain rfl := Option.some.inj h
    rfl
  | cons c u ih =>
    rw [openAfter_cons, Option.bind_eq_some_iff] at h ⊢
    obtain ⟨d, hc, hu⟩ := h
    exact ⟨d + k, openAfterChar_add hc k, ih hu⟩

theorem openAfter_of_forall {u : List Char} (h : ∀ c ∈ u, c ∉ ['(', '[', ')', ']', ','])
    (depth : Nat) : openAfter depth u = some depth := by
  induction u with
  | nil => rfl
  | cons c u ih =>
    obtain ⟨hc, hu⟩ := List.forall_mem_cons.1 h
    have hstep : openAfterChar depth c = some depth := by simp_all [openAfterChar]
    rw [openAfter_cons, hstep]
    exact ih hu

/-- A text that begins with what ends another one between brackets or commas. -/
def Stops (r : List Char) : Prop := ∃ c ∈ [')', ']', ','], ∃ cs, r = c :: cs

theorem Stops.openAfter {r : List Char} (h : Stops r) : openAfter 0 r = none := by
  obtain ⟨c, hc, cs, rfl⟩ := h
  simp only [List.mem_cons, List.not_mem_nil, or_false] at hc
  rcases hc with rfl | rfl | rfl <;> rfl

namespace Whole

variable {u v r s : List Char}

theorem openAfter (h : Whole u) (depth : Nat) : openAfter depth u = some depth := by
  have h := openAfter_add h depth
  rwa [Nat.zero_add] at h

/-- A whole text does not go on after a stop. -/
theorem append_stops_ne (hu : Whole u) (hv : Whole v) (hr : Stops r) : v ≠ u ++ r := by
  rintro rfl
  rw [Whole, openAfter_append, hu, Option.bind_some, hr.openAfter] at hv
  cases hv

/-- Where whole texts are followed by a stop, it is clear where they end. -/
theorem append_inj (hu : Whole u) (hv : Whole v) (hr : Stops r) (hs : Stops s)
    (h : u ++ r = v ++ s) : u = v ∧ r = s := by
  obtain ⟨c, hc, r, rfl⟩ := hr
  obtain ⟨d, hd, s, rfl⟩ := hs
  rcases List.append_eq_append_iff.1 h with ⟨w, hw, hr⟩ | ⟨w, hw, hs⟩
  · cases w with
    | nil => exact ⟨by rw [hw, List.append_nil], hr⟩
    | cons a w =>
      obtain rfl := (List.cons.inj hr).1
      exact absurd hw (hu.append_stops_ne hv ⟨c, hc, w, rfl⟩)
  · cases w with
    | nil => exact ⟨by rw [hw, List.append_nil], hs.symm⟩
    | cons a w =>
      obtain rfl := (List.cons.inj hs).1
      exact absurd hw (hv.append_stops_ne hu ⟨d, hd, w, rfl⟩)

end Whole

/-! ### Lexemes and their texts -/

/-- A piece of source text. -/
inductive Lexeme where
  /-- A name, a number or another word. -/
  | word (text : List Char)
  /-- The word in front of what is made anew, and the blank after it. -/
  | make
  /-- An operator in front of its operand or behind it, or a dot. -/
  | mark (c : Char)
  /-- An operator between its operands, and the blanks around it. -/
  | between (symbol : List Char)
  /-- Brackets, with the texts between them and the commas. -/
  | group (square : Bool) (texts : List (List Char))
  deriving DecidableEq

/-- Characters that are not part of words. -/
def marks : List Char :=
  [' ', '(', ')', '[', ']', ',', '.', '+', '-', '*', '/', '%', '<', '>', '=', '!', '&', '|']

/-- A text without some characters. -/
def Avoids (text chars : List Char) : Prop := ∀ c ∈ text, c ∉ chars

instance (text chars : List Char) : Decidable (Avoids text chars) :=
  List.decidableBAll (· ∉ chars) text

namespace Lexeme

def opener : (square : Bool) → Char
  | false => '('
  | true => '['

def closer : (square : Bool) → Char
  | false => ')'
  | true => ']'

def text : Lexeme → List Char
  | word text => text
  | make => ['n', 'e', 'w', ' ']
  | mark c => [c]
  | between symbol => ' ' :: symbol ++ [' ']
  | group square texts => opener square :: [',', ' '].intercalate texts ++ [closer square]

/-- Lexemes whose texts are what they are meant to be. -/
def Valid : Lexeme → Prop
  | word text => text ≠ [] ∧ Avoids text marks ∧ text ≠ ['n', 'e', 'w']
  | make => True
  | mark c => c ∈ ['.', '+', '-', '!']
  | between symbol => Avoids symbol [' ', '(', '[', ')', ']', ',']
  | group _ texts => ∀ u ∈ texts, u ≠ [] ∧ Whole u

instance : (x : Lexeme) → Decidable x.Valid
  | word text => inferInstanceAs (Decidable (text ≠ [] ∧ Avoids text marks ∧ _))
  | make => inferInstanceAs (Decidable True)
  | mark c => inferInstanceAs (Decidable (c ∈ ['.', '+', '-', '!']))
  | between symbol => inferInstanceAs (Decidable (Avoids symbol _))
  | group _ texts => inferInstanceAs (Decidable (∀ u ∈ texts, u ≠ [] ∧ openAfter 0 u = some 0))

def isWord : Lexeme → Bool
  | word _ => true
  | _ => false

/-- Whether the text begins with a character that could be part of a word. -/
def beginsWord : Lexeme → Bool
  | word _ | make => true
  | _ => false

/-- What a lexeme is, as its first character shows. -/
inductive Class where
  | verbal
  | single
  | infixed
  | bracket
  deriving DecidableEq

def classOf : Lexeme → Class
  | word _ | make => .verbal
  | mark _ => .single
  | between _ => .infixed
  | group .. => .bracket

def classOfChar (c : Char) : Class :=
  if c ∈ ['.', '+', '-', '!'] then .single
  else if c = ' ' then .infixed
  else if c ∈ ['(', '['] then .bracket
  else .verbal

end Lexeme

open Lexeme

/-- The text that lexemes make up. -/
def textOf (xs : List Lexeme) : List Char := xs.flatMap Lexeme.text

@[simp] theorem textOf_nil : textOf [] = [] := rfl

@[simp] theorem textOf_cons (x : Lexeme) (xs : List Lexeme) :
    textOf (x :: xs) = x.text ++ textOf xs := List.flatMap_cons

@[simp] theorem textOf_append (xs ys : List Lexeme) :
    textOf (xs ++ ys) = textOf xs ++ textOf ys := List.flatMap_append

/-- Lexemes in which no word runs into the next. -/
structure Lexical (xs : List Lexeme) : Prop where
  valid : ∀ x ∈ xs, x.Valid
  apart : xs.IsChain fun x y => x.isWord → y.beginsWord = false

namespace Lexical

variable {x : Lexeme} {xs ys : List Lexeme}

theorem nil : Lexical [] := ⟨fun _ hx => absurd hx List.not_mem_nil, .nil⟩

theorem singleton (hx : x.Valid) : Lexical [x] :=
  ⟨fun _ hy => List.mem_singleton.1 hy ▸ hx, .singleton x⟩

theorem tail (h : Lexical (x :: xs)) : Lexical xs :=
  ⟨fun y hy => h.valid y (List.mem_cons_of_mem x hy), h.apart.tail⟩

/-- Anything may follow what is no word. -/
theorem cons (hx : x.Valid) (hword : x.isWord = false) (hxs : Lexical xs) : Lexical (x :: xs) := by
  refine ⟨List.forall_mem_cons.2 ⟨hx, hxs.valid⟩, List.isChain_cons.2 ⟨?_, hxs.apart⟩⟩
  exact fun y _ hword' => absurd hword' (by rw [hword]; exact Bool.false_ne_true)

/-- What does not begin like a word may follow anything. -/
theorem append (hxs : Lexical xs) (hys : Lexical ys)
    (hbegins : ∀ y ∈ ys.head?, y.beginsWord = false) : Lexical (xs ++ ys) := by
  refine ⟨List.forall_mem_append.2 ⟨hxs.valid, hys.valid⟩, ?_⟩
  exact List.isChain_append.2 ⟨hxs.apart, hys.apart, fun x _ y hy _ => hbegins y hy⟩

/-- What is neither a word nor begins like one may stand between any lexemes. -/
theorem operator (hxs : Lexical xs) (hx : x.Valid) (hword : x.isWord = false)
    (hbegins : x.beginsWord = false) (hys : Lexical ys) : Lexical (xs ++ x :: ys) :=
  hxs.append (.cons hx hword hys) fun _ hy => Option.some.inj hy ▸ hbegins

end Lexical

/-! ### Whole lexemes -/

theorem openAfter_intercalate {texts : List (List Char)} (h : ∀ u ∈ texts, Whole u) (depth : Nat) :
    openAfter (depth + 1) ([',', ' '].intercalate texts) = some (depth + 1) := by
  induction texts with
  | nil => rfl
  | cons u texts ih =>
    obtain ⟨hu, htexts⟩ := List.forall_mem_cons.1 h
    cases texts with
    | nil =>
      rw [List.intercalate_singleton]
      exact hu.openAfter _
    | cons v texts =>
      rw [List.intercalate_cons_cons, openAfter_append, openAfter_append, hu.openAfter]
      exact ih htexts

theorem Lexeme.Valid.openAfter_text {x : Lexeme} (h : x.Valid) (depth : Nat) :
    openAfter depth x.text = some depth := by
  have hout : ∀ {c}, c ∉ marks → c ∉ ['(', '[', ')', ']', ','] := by
    intro c hc
    simp only [marks, List.mem_cons, not_or] at hc
    simp [hc]
  cases x with
  | word text => exact openAfter_of_forall (fun c hc => hout (h.2.1 c hc)) depth
  | make => rfl
  | mark c =>
    refine openAfter_of_forall (fun d hd => ?_) depth
    rw [List.mem_singleton.1 hd]
    simp only [Valid, List.mem_cons, List.not_mem_nil, or_false] at h
    rcases h with rfl | rfl | rfl | rfl <;> decide
  | between symbol =>
    refine openAfter_of_forall (fun c hc => ?_) depth
    simp only [text, List.cons_append, List.mem_cons, List.mem_append, List.not_mem_nil,
      or_false] at hc
    rcases hc with rfl | hc | rfl
    · decide
    · exact fun hbracket => h c hc (List.mem_cons_of_mem _ hbracket)
    · decide
  | group square texts =>
    have hinner := openAfter_intercalate (fun u hu => (h u hu).2) depth
    cases square <;>
    · rw [text, List.cons_append, openAfter_cons]
      exact (openAfter_append _ _ _).trans (hinner ▸ rfl)

theorem Lexical.whole {xs : List Lexeme} (h : Lexical xs) : Whole (textOf xs) := by
  induction xs with
  | nil => rfl
  | cons x xs ih =>
    rw [Whole, textOf_cons, openAfter_append, (h.valid x List.mem_cons_self).openAfter_text]
    exact ih h.tail

/-! ### Cutting a text into lexemes -/

/-- The text of a valid lexeme is not empty, and begins as its class does. -/
theorem Lexeme.Valid.exists_text {x : Lexeme} (h : x.Valid) :
    ∃ c cs, x.text = c :: cs ∧ classOfChar c = x.classOf := by
  cases x with
  | word text =>
    obtain ⟨hne, hmarks, _⟩ := h
    obtain ⟨c, cs, rfl⟩ := List.exists_cons_of_ne_nil hne
    have hc := hmarks c List.mem_cons_self
    simp only [marks, List.mem_cons, not_or] at hc
    exact ⟨c, cs, rfl, by simp [classOfChar, classOf, hc]⟩
  | make => exact ⟨_, _, rfl, rfl⟩
  | mark c => exact ⟨c, [], rfl, if_pos h⟩
  | between symbol => exact ⟨_, _, rfl, rfl⟩
  | group square texts => cases square <;> exact ⟨_, _, rfl, rfl⟩

/-- What does not begin like a word begins with a mark. -/
theorem Lexeme.Valid.exists_text_of_beginsWord {x : Lexeme} (h : x.Valid)
    (hbegins : x.beginsWord = false) : ∃ c cs, x.text = c :: cs ∧ c ∈ marks := by
  cases x with
  | word text => cases hbegins
  | make => cases hbegins
  | mark c =>
    refine ⟨c, [], rfl, ?_⟩
    simp only [Valid, List.mem_cons, List.not_mem_nil, or_false] at h
    rcases h with rfl | rfl | rfl | rfl <;> decide
  | between symbol => exact ⟨' ', _, rfl, by decide⟩
  | group square texts => exact ⟨opener square, _, rfl, by cases square <;> decide⟩

theorem textOf_ne_nil {xs : List Lexeme} (h : Lexical xs) (hxs : xs ≠ []) : textOf xs ≠ [] := by
  obtain ⟨x, xs, rfl⟩ := List.exists_cons_of_ne_nil hxs
  obtain ⟨c, cs, hx, _⟩ := (h.valid x List.mem_cons_self).exists_text
  rw [textOf_cons, hx]
  exact List.cons_ne_nil _ _

/-- Where lists that have nothing of some sort are followed by something of that sort or by nothing,
    it is clear where they end. -/
theorem append_inj_of_forall {α : Type} {P : α → Prop} {u v r s : List α} (hu : ∀ c ∈ u, ¬P c)
    (hv : ∀ c ∈ v, ¬P c) (hr : ∀ c ∈ r.head?, P c) (hs : ∀ c ∈ s.head?, P c)
    (h : u ++ r = v ++ s) : u = v ∧ r = s := by
  rcases List.append_eq_append_iff.1 h with ⟨w, rfl, rfl⟩ | ⟨w, rfl, rfl⟩
  · cases w with
    | nil => exact ⟨(List.append_nil u).symm, rfl⟩
    | cons c w => exact absurd (hr c rfl) (hv c (by simp))
  · cases w with
    | nil => exact ⟨List.append_nil v, rfl⟩
    | cons c w => exact absurd (hs c rfl) (hu c (by simp))

section Groups

/-- Texts, each with a comma before it. -/
def afterCommas (texts : List (List Char)) : List Char := texts.flatMap fun u => ',' :: ' ' :: u

theorem intercalate_cons (u : List Char) (texts : List (List Char)) :
    [',', ' '].intercalate (u :: texts) = u ++ afterCommas texts := by
  induction texts generalizing u with
  | nil => simp [afterCommas]
  | cons v texts ih =>
    rw [List.intercalate_cons_cons, ih, List.append_assoc]
    rfl

variable {ts us : List (List Char)} {c : Char} {r s : List Char} (hc : c ∈ [')', ']'])
include hc

theorem stops_cons (r : List Char) : Stops (c :: r) :=
  ⟨c, by rcases List.mem_pair.1 hc with rfl | rfl <;> decide, r, rfl⟩

theorem stops_afterCommas (texts : List (List Char)) (r : List Char) :
    Stops (afterCommas texts ++ c :: r) := by
  cases texts with
  | nil => exact stops_cons hc r
  | cons v texts => exact ⟨',', by decide, _, rfl⟩

theorem cons_ne_afterCommas (u : List Char) (us : List (List Char)) :
    c :: r ≠ afterCommas (u :: us) ++ s := by
  rcases List.mem_pair.1 hc with rfl | rfl <;> exact fun h => absurd (List.cons.inj h).1 (by decide)

theorem afterCommas_inj (hts : ∀ t ∈ ts, Whole t) (hus : ∀ u ∈ us, Whole u)
    (h : afterCommas ts ++ c :: r = afterCommas us ++ c :: s) : ts = us ∧ r = s := by
  induction ts generalizing us with
  | nil =>
    cases us with
    | nil => exact ⟨rfl, (List.cons.inj h).2⟩
    | cons u us => exact absurd h (cons_ne_afterCommas hc u us)
  | cons t ts ih =>
    cases us with
    | nil => exact absurd h.symm (cons_ne_afterCommas hc t ts)
    | cons u us =>
      obtain ⟨ht, hts'⟩ := List.forall_mem_cons.1 hts
      obtain ⟨hu, hus'⟩ := List.forall_mem_cons.1 hus
      have htu : t ++ (afterCommas ts ++ c :: r) = u ++ (afterCommas us ++ c :: s) := by
        simpa [afterCommas] using h
      obtain ⟨rfl, hrest⟩ :=
        ht.append_inj hu (stops_afterCommas hc ts r) (stops_afterCommas hc us s) htu
      obtain ⟨rfl, hrs⟩ := ih hts' hus' hrest
      exact ⟨rfl, hrs⟩

/-- A text that is not empty does not begin with a bracket that closes. -/
theorem cons_ne_append {u : List Char} (hu : Whole u) (hne : u ≠ []) : c :: r ≠ u ++ s := by
  obtain ⟨d, u, rfl⟩ := List.exists_cons_of_ne_nil hne
  intro h
  obtain rfl := (List.cons.inj h).1
  rw [Whole, (stops_cons hc u).openAfter] at hu
  cases hu

/-- What stands between brackets can be told from the text, part by part. -/
theorem intercalate_inj (hts : ∀ t ∈ ts, t ≠ [] ∧ Whole t) (hus : ∀ u ∈ us, u ≠ [] ∧ Whole u)
    (h : [',', ' '].intercalate ts ++ c :: r = [',', ' '].intercalate us ++ c :: s) :
    ts = us ∧ r = s := by
  cases ts with
  | nil =>
    cases us with
    | nil => exact ⟨rfl, (List.cons.inj h).2⟩
    | cons u us =>
      obtain ⟨hne, hu⟩ := hus u List.mem_cons_self
      rw [intercalate_cons, List.append_assoc] at h
      exact absurd h (cons_ne_append hc hu hne)
  | cons t ts =>
    obtain ⟨hne, ht⟩ := hts t List.mem_cons_self
    rw [intercalate_cons, List.append_assoc] at h
    cases us with
    | nil => exact absurd h.symm (cons_ne_append hc ht hne)
    | cons u us =>
      rw [intercalate_cons, List.append_assoc] at h
      obtain ⟨rfl, hrest⟩ := ht.append_inj (hus u List.mem_cons_self).2
        (stops_afterCommas hc ts r) (stops_afterCommas hc us s) h
      obtain ⟨rfl, hrs⟩ := afterCommas_inj hc (fun t ht => (hts t (List.mem_cons_of_mem _ ht)).2)
        (fun u hu => (hus u (List.mem_cons_of_mem _ hu)).2) hrest
      exact ⟨rfl, hrs⟩

end Groups

/-- What follows a word: nothing, or what is not part of a word. -/
def Lexeme.Ends (x : Lexeme) (r : List Char) : Prop := x.isWord = true → ∀ c ∈ r.head?, c ∈ marks

theorem word_of_append_eq_make {t r s : List Char} (ht : (word t).Valid)
    (hr : ∀ c ∈ r.head?, c ∈ marks) (h : t ++ r = make.text ++ s) : t = ['n', 'e', 'w'] :=
  (append_inj_of_forall (P := (· ∈ marks)) (s := ' ' :: s) ht.2.1
    (show Avoids ['n', 'e', 'w'] marks by decide) hr
    (by simp [marks]) h).1

/-- The first lexeme of a text can be told from the text. -/
theorem Lexeme.Valid.text_append_inj {x y : Lexeme} {r s : List Char} (hx : x.Valid)
    (hy : y.Valid) (hr : x.Ends r) (hs : y.Ends s) (h : x.text ++ r = y.text ++ s) :
    x = y ∧ r = s := by
  have hclass : x.classOf = y.classOf := by
    obtain ⟨c, cs, hxt, hc⟩ := hx.exists_text
    obtain ⟨d, ds, hyt, hd⟩ := hy.exists_text
    rw [hxt, hyt] at h
    rw [← hc, ← hd, (List.cons.inj h).1]
  cases x with
  | word t =>
    cases y with
    | word u =>
      obtain ⟨rfl, hrs⟩ := append_inj_of_forall hx.2.1 hy.2.1 (hr rfl) (hs rfl) h
      exact ⟨rfl, hrs⟩
    | make => exact absurd (word_of_append_eq_make hx (hr rfl) h) hx.2.2
    | _ => cases hclass
  | make =>
    cases y with
    | word u => exact absurd (word_of_append_eq_make hy (hs rfl) h.symm) hy.2.2
    | make => exact ⟨rfl, List.append_cancel_left h⟩
    | _ => cases hclass
  | mark c =>
    cases y with
    | mark d =>
      obtain ⟨rfl, hrs⟩ := List.cons.inj h
      exact ⟨rfl, hrs⟩
    | _ => cases hclass
  | between t =>
    cases y with
    | between u =>
      have hblank : ∀ {v : List Char}, (between v).Valid → ∀ c ∈ v, ¬c = ' ' :=
        fun hv c hc hblank => hv c hc (by simp [hblank])
      have h : t ++ ' ' :: r = u ++ ' ' :: s := by simpa [text] using h
      obtain ⟨rfl, hrs⟩ := append_inj_of_forall (hblank hx) (hblank hy) (by simp) (by simp) h
      exact ⟨rfl, (List.cons.inj hrs).2⟩
    | _ => cases hclass
  | group square ts =>
    cases y with
    | group square' us =>
      have hopener : ∀ b b' : Bool, opener b = opener b' → b = b' := by decide
      have hcloser : ∀ b : Bool, closer b ∈ [')', ']'] := by decide
      obtain rfl := hopener square square' (List.cons.inj h).1
      have h : [',', ' '].intercalate ts ++ closer square :: r =
          [',', ' '].intercalate us ++ closer square :: s := by simpa [text] using h
      obtain ⟨rfl, hrs⟩ := intercalate_inj (hcloser square) hx hy h
      exact ⟨rfl, hrs⟩
    | _ => cases hclass

/-- After the first word of lexemes comes what is not part of it. -/
theorem Lexical.ends {x : Lexeme} {xs : List Lexeme} (h : Lexical (x :: xs)) :
    x.Ends (textOf xs) := by
  intro hword c hc
  cases xs with
  | nil => cases hc
  | cons y xs =>
    have hbegins : y.beginsWord = false := (List.isChain_cons_cons.1 h.apart).1 hword
    obtain ⟨d, ds, hy, hd⟩ := (h.valid y (by simp)).exists_text_of_beginsWord hbegins
    rw [textOf_cons, hy] at hc
    exact Option.some.inj hc ▸ hd

/-- The text tells the lexemes. -/
theorem textOf_inj {xs ys : List Lexeme} (hxs : Lexical xs) (hys : Lexical ys)
    (h : textOf xs = textOf ys) : xs = ys := by
  induction xs generalizing ys with
  | nil =>
    by_contra hne
    exact textOf_ne_nil hys (Ne.symm hne) h.symm
  | cons x xs ih =>
    cases ys with
    | nil => exact absurd h (textOf_ne_nil hxs (List.cons_ne_nil x xs))
    | cons y ys =>
      obtain ⟨rfl, hrest⟩ := (hxs.valid x List.mem_cons_self).text_append_inj
        (hys.valid y List.mem_cons_self) hxs.ends hys.ends h
      rw [ih hxs.tail hys.tail hrest]

end Dataflow
