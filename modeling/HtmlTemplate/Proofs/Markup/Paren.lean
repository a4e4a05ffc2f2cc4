import HtmlTemplate.Proofs.Markup.Splice
import Mathlib

/-!
# The grammar of balanced tags

Of the tags of a text, the check sees those that open an element and those that close one, as parentheses with names.
It accepts the words of a grammar, and it finds fault with a text at the first parenthesis that no word of the
grammar can go on from (`Markup.check_iff`).

The stack of the check is a fact about the parentheses read so far. They are the word of a list of elements, an
opening one, another such word, an opening one, and so on: `Leaves` says so, and the names of these opening ones, the
innermost first, are the stack. The parentheses determine it (`Leaves.unique`), and a beginning that leaves some
elements open can be closed (`Leaves.viable`), so that a beginning is viable exactly if it leaves some elements open.
-/

namespace HtmlTemplate

/-- A tag as the check sees it. -/
inductive Paren where
  | opening (name : Text)
  | closing (name : Text)
  deriving DecidableEq

/-- The parenthesis that a tag is; none if it neither opens nor closes an element. -/
def Tag.paren? (tag : Tag) : Option Paren :=
  if tag.closing then some (.closing tag.name) else if tag.opensScope then some (.opening tag.name) else none

/-- The parentheses of a text in document order. -/
def Markup.parens (t : Text) : List Paren := (ofText t).tags.filterMap Tag.paren?

namespace Paren

/-- The words of the grammar: nothing, or an element with a word inside and a word behind it. -/
inductive Word : List Paren → Prop where
  | nil : Word []
  | element {n m : Text} {u v : List Paren} (hname : n.sameUpToCase m = true) (hinside : Word u) (hbehind : Word v) :
      Word (opening n :: (u ++ closing m :: v))

/-- Some word of the grammar begins with `p`. -/
def Viable (p : List Paren) : Prop := ∃ v, Word (p ++ v)

/-- The element opened last of those that `p` leaves open is called `n`. -/
def Innermost (n : Text) (p : List Paren) : Prop := ∃ q u, p = q ++ opening n :: u ∧ Word u

/-- The beginning `p` of `w` is the shortest one that is not viable. -/
structure Fault (w p : List Paren) : Prop where
  isPrefix : p <+: w
  not_viable : ¬ Viable p
  length_le : ∀ q, q <+: w → ¬ Viable q → p.length ≤ q.length

/-- After `p`, the elements of these names are open, innermost first. -/
def Leaves : List Text → List Paren → Prop
  | [], p => Word p
  | n :: stack, p => ∃ q u, p = q ++ opening n :: u ∧ Word u ∧ Leaves stack q

/-! ## Words -/

theorem Word.append {u v : List Paren} (hu : Word u) (hv : Word v) : Word (u ++ v) := by
  induction hu with
  | nil => exact hv
  | element hname hinside _ _ ih =>
    rw [List.cons_append, List.append_assoc, List.cons_append]
    exact .element hname hinside ih

theorem Word.eq_nil_or_concat {w : List Paren} (h : Word w) :
    w = [] ∨
      ∃ q n u m, w = q ++ opening n :: u ++ [closing m] ∧ Word q ∧ Word u ∧ n.sameUpToCase m = true := by
  induction h with
  | nil => exact .inl rfl
  | @element n m u v hname hinside _ _ ih =>
    refine .inr ?_
    rcases ih with rfl | ⟨q, n', u', m', rfl, hq, hu', hname'⟩
    · exact ⟨[], n, u, m, by simp, .nil, hinside, hname⟩
    · exact ⟨opening n :: (u ++ closing m :: q), n', u', m', by simp, .element hname hinside hq, hu', hname'⟩

theorem Word.exists_of_concat_closing {p : List Paren} {m : Text} (h : Word (p ++ [closing m])) :
    ∃ q n u, p = q ++ opening n :: u ∧ Word q ∧ Word u ∧ n.sameUpToCase m = true := by
  rcases h.eq_nil_or_concat with he | ⟨q, n, u, m', he, hq, hu, hname⟩
  · simp at he
  · obtain ⟨rfl, hm⟩ := List.append_inj' he rfl
    obtain rfl : m = m' := by simpa using hm
    exact ⟨q, n, u, rfl, hq, hu, hname⟩

theorem not_word_concat_opening (p : List Paren) (n : Text) : ¬ Word (p ++ [opening n]) := by
  intro h
  rcases h.eq_nil_or_concat with he | ⟨q, n', u, m, he, -⟩
  · simp at he
  · have hlast := (List.append_inj' he rfl).2
    simp at hlast

/-! ## What is left open -/

theorem leaves_nil_iff {p : List Paren} : Leaves [] p ↔ Word p := Iff.rfl

namespace Leaves

variable {stack stack' : List Text} {p q u : List Paren} {n m : Text}

theorem push (h : Leaves stack p) (n : Text) : Leaves (n :: stack) (p ++ [opening n]) :=
  ⟨p, [], rfl, .nil, h⟩

theorem append_word (h : Leaves stack p) (hu : Word u) : Leaves stack (p ++ u) := by
  cases stack with
  | nil => exact Word.append h hu
  | cons n stack =>
    obtain ⟨q, v, rfl, hv, hq⟩ := h
    exact ⟨q, v ++ u, by simp, hv.append hu, hq⟩

theorem append (h : Leaves stack p) (h' : Leaves stack' q) : Leaves (stack' ++ stack) (p ++ q) := by
  induction stack' generalizing q with
  | nil => exact h.append_word h'
  | cons n stack' ih =>
    obtain ⟨q', u, rfl, hu, hq'⟩ := h'
    exact ⟨p ++ q', u, by simp, hu, ih hq'⟩

theorem pop (h : Leaves (n :: stack) p) (hname : n.sameUpToCase m = true) : Leaves stack (p ++ [closing m]) := by
  obtain ⟨q, u, rfl, hu, hq⟩ := h
  rw [List.append_assoc, List.cons_append]
  exact hq.append_word (.element hname hu .nil)

theorem viable (h : Leaves stack p) : Viable p := by
  induction stack generalizing p with
  | nil => exact ⟨[], by rw [List.append_nil]; exact h⟩
  | cons n stack ih =>
    obtain ⟨v, hv⟩ := ih (h.pop (m := n) (by simp [Text.sameUpToCase]))
    exact ⟨closing n :: v, by simpa using hv⟩

theorem exists_of_word_append {w v : List Paren} (h : Word w) (hp : w = p ++ v) : ∃ stack, Leaves stack p := by
  induction h generalizing p v with
  | nil => exact ⟨[], by rw [(List.append_eq_nil_iff.1 hp.symm).1]; exact Word.nil⟩
  | @element n m u w hname hinside hbehind ihInside ihBehind =>
    cases p with
    | nil => exact ⟨[], Word.nil⟩
    | cons b p =>
      obtain ⟨rfl, hrest⟩ := List.cons.inj hp
      have hopen : Leaves [n] [opening n] := (leaves_nil_iff.2 .nil).push n
      rcases List.append_eq_append_iff.1 hrest with ⟨r, rfl, hr⟩ | ⟨r, rfl, -⟩
      · cases r with
        | nil =>
          rw [List.append_nil]
          exact ⟨[n], hopen.append_word hinside⟩
        | cons c r =>
          obtain ⟨rfl, rfl⟩ := List.cons.inj hr
          obtain ⟨stack, hstack⟩ := ihBehind rfl
          have helement : Leaves [] (opening n :: (u ++ [closing m])) := Word.element hname hinside .nil
          refine ⟨stack ++ [], ?_⟩
          have := helement.append hstack
          simpa using this
      · obtain ⟨stack, hstack⟩ := ihInside rfl
        exact ⟨stack ++ [n], hopen.append hstack⟩

theorem exists_of_viable (h : Viable p) : ∃ stack, Leaves stack p := by
  obtain ⟨v, hv⟩ := h
  exact exists_of_word_append hv rfl

theorem exists_of_closing (h : Leaves stack (p ++ [closing m])) :
    ∃ n, n.sameUpToCase m = true ∧ Leaves (n :: stack) p := by
  cases stack with
  | nil =>
    obtain ⟨q, n, u, rfl, hq, hu, hname⟩ := Word.exists_of_concat_closing h
    exact ⟨n, hname, q, u, rfl, hu, hq⟩
  | cons n' stack =>
    obtain ⟨q, u, he, hu, hq⟩ := h
    rcases hu.eq_nil_or_concat with rfl | ⟨q', n, u', m', rfl, hq', hu', hname⟩
    · have hlast := (List.append_inj' he rfl).2
      simp at hlast
    · rw [← List.cons_append, ← List.append_assoc] at he
      obtain ⟨rfl, hm⟩ := List.append_inj' he rfl
      obtain rfl : m = m' := by simpa using hm
      exact ⟨n, hname, q ++ opening n' :: q', u', by simp, hu', q, q', rfl, hq', hq⟩

theorem exists_of_opening (h : Leaves stack (p ++ [opening n])) :
    ∃ stack', stack = n :: stack' ∧ Leaves stack' p := by
  cases stack with
  | nil => exact absurd h (not_word_concat_opening p n)
  | cons n' stack =>
    obtain ⟨q, u, he, hu, hq⟩ := h
    rcases hu.eq_nil_or_concat with rfl | ⟨q', n₁, u', m', rfl, -⟩
    · obtain ⟨rfl, hn⟩ := List.append_inj' he rfl
      obtain rfl : n = n' := by simpa using hn
      exact ⟨stack, rfl, hq⟩
    · rw [← List.cons_append, ← List.append_assoc] at he
      have hlast := (List.append_inj' he rfl).2
      simp at hlast

/-- What is left open is determined by what was read. -/
theorem unique (h : Leaves stack p) (h' : Leaves stack' p) : stack = stack' := by
  induction p using List.reverseRecOn generalizing stack stack' with
  | nil =>
    have hnil : ∀ {s : List Text}, Leaves s [] → s = [] := by
      intro s hs
      cases s with
      | nil => rfl
      | cons n s =>
        obtain ⟨q, u, he, -⟩ := hs
        simp at he
    rw [hnil h, hnil h']
  | append_singleton p b ih =>
    cases b with
    | opening n =>
      obtain ⟨s, rfl, hs⟩ := h.exists_of_opening
      obtain ⟨s', rfl, hs'⟩ := h'.exists_of_opening
      rw [ih hs hs']
    | closing m =>
      obtain ⟨n, -, hs⟩ := h.exists_of_closing
      obtain ⟨n', -, hs'⟩ := h'.exists_of_closing
      exact (List.cons.inj (ih hs hs')).2

theorem not_viable_closing (h : Leaves stack p)
    (hname : ∀ n stack', stack = n :: stack' → n.sameUpToCase m = false) :
    ¬ Viable (p ++ [closing m]) := by
  intro hviable
  obtain ⟨stack', hstack'⟩ := exists_of_viable hviable
  obtain ⟨n, hn, hleaves⟩ := hstack'.exists_of_closing
  simp [hname n stack' (h.unique hleaves)] at hn

theorem innermost (h : Leaves (n :: stack) p) : Innermost n p := by
  obtain ⟨q, u, hp, hu, -⟩ := h
  exact ⟨q, u, hp, hu⟩

end Leaves

variable {p q w : List Paren} {b : Paren} {n m : Text}

theorem Viable.of_isPrefix (h : Viable q) (hp : p <+: q) : Viable p := by
  obtain ⟨r, rfl⟩ := hp
  obtain ⟨v, hv⟩ := h
  exact ⟨r ++ v, by rwa [← List.append_assoc]⟩

theorem Innermost.exists_leaves (h : Innermost n p) (hviable : Viable p) : ∃ stack, Leaves (n :: stack) p := by
  obtain ⟨q, u, rfl, hu⟩ := h
  obtain ⟨stack, hstack⟩ := Leaves.exists_of_viable (hviable.of_isPrefix (List.prefix_append q _))
  exact ⟨stack, q, u, rfl, hu, hstack⟩

namespace Fault

theorem of_viable (hbegins : p ++ [b] <+: w) (hviable : Viable p) (hnot : ¬ Viable (p ++ [b])) :
    Fault w (p ++ [b]) := by
  refine ⟨hbegins, hnot, fun q hq hqnot => ?_⟩
  by_contra hlt
  have hle : q.length ≤ p.length := by
    simp only [List.length_append, List.length_singleton] at hlt
    omega
  exact hqnot (hviable.of_isPrefix
    (List.prefix_of_prefix_length_le hq ((List.prefix_append p [b]).trans hbegins) hle))

theorem viable (h : Fault w (p ++ [b])) : Viable p := by
  by_contra hnot
  have hle := h.length_le p ((List.prefix_append p [b]).trans h.isPrefix) hnot
  simp only [List.length_append, List.length_singleton] at hle
  omega

theorem unique (h : Fault w p) (h' : Fault w q) : p = q := by
  have hle := h.length_le q h'.isPrefix h'.not_viable
  have hge := h'.length_le p h.isPrefix h.not_viable
  exact (List.prefix_of_prefix_length_le h.isPrefix h'.isPrefix hle).eq_of_length (Nat.le_antisymm hle hge)

end Fault

/-! ## The check -/

def Verdict (w : List Paren) : Except Imbalance Unit → Prop
  | .ok () => Word w
  | .error (.unexpectedClose tag) => ∃ p m, Fault w (p ++ [closing m]) ∧ Word p ∧ m.lower = tag
  | .error (.mismatchedClose expected found) =>
    ∃ p n m, Fault w (p ++ [closing m]) ∧ Innermost n p ∧ n.lower = expected ∧ m.lower = found
  | .error (.unclosed tag) => Viable w ∧ ∃ n, Innermost n w ∧ n.lower = tag
  | .error .notMarkup => False

open Markup (checkTags)

/-- The induction is on the tags to come; what was read before them leaves the elements of the stack open. -/
theorem verdict_checkTags {stack : List Text} (h : Leaves stack p) (ts : List Tag) :
    Verdict (p ++ ts.filterMap Tag.paren?) (checkTags (stack.map Text.lower) ts) := by
  induction ts generalizing stack p with
  | nil =>
    rw [List.filterMap_nil, List.append_nil]
    cases stack with
    | nil => exact h
    | cons n stack => exact ⟨h.viable, n, h.innermost, rfl⟩
  | cons tag ts ih =>
    have hread : ∀ {b : Paren}, tag.paren? = some b →
        p ++ (tag :: ts).filterMap Tag.paren? = p ++ [b] ++ ts.filterMap Tag.paren? := by
      intro b hb
      rw [List.filterMap_cons_some hb, List.append_assoc, List.singleton_append]
    cases hclosing : tag.closing with
    | true =>
      have hb : tag.paren? = some (closing tag.name) := by rw [Tag.paren?, if_pos hclosing]
      rw [hread hb]
      cases stack with
      | nil =>
        have hnot := h.not_viable_closing (m := tag.name) (fun n stack' he => by simp at he)
        rw [List.map_nil, checkTags, if_pos hclosing]
        exact ⟨p, tag.name, .of_viable (List.prefix_append _ _) h.viable hnot, h, rfl⟩
      | cons n stack =>
        rw [List.map_cons, checkTags, if_pos hclosing]
        split
        · next hname => exact ih (h.pop (by simpa [Text.sameUpToCase] using hname))
        · next hname =>
          have hnot := h.not_viable_closing (m := tag.name) (fun n' stack' he => by
            obtain ⟨rfl, -⟩ := List.cons.inj he
            simpa [Text.sameUpToCase] using hname)
          exact ⟨p, n, tag.name, .of_viable (List.prefix_append _ _) h.viable hnot, h.innermost, rfl, rfl⟩
    | false =>
      rw [Markup.checkTags_of_not_closing hclosing]
      cases hopens : tag.opensScope with
      | true =>
        have hb : tag.paren? = some (opening tag.name) := by simp [Tag.paren?, hclosing, hopens]
        rw [hread hb]
        exact ih (h.push tag.name)
      | false =>
        have hb : tag.paren? = none := by simp [Tag.paren?, hclosing, hopens]
        rw [List.filterMap_cons_none hb]
        exact ih h

/-- What the check says at the end of a text that leaves these elements open. -/
def atEnd : List Text → Except Imbalance Unit
  | [] => .ok ()
  | n :: _ => .error (.unclosed n.lower)

/-- What the check says of a closing parenthesis that is not that of the innermost of these open elements. -/
def atClosing (m : Text) : List Text → Except Imbalance Unit
  | [] => .error (.unexpectedClose m.lower)
  | n :: _ => .error (.mismatchedClose n.lower m.lower)

theorem Verdict.exists_leaves {r : Except Imbalance Unit} (h : Verdict w r) :
    (∃ stack, Leaves stack w ∧ r = atEnd stack) ∨
      ∃ p m stack, Fault w (p ++ [closing m]) ∧ Leaves stack p ∧ r = atClosing m stack := by
  rcases r with fault | ⟨⟩
  · cases fault with
    | unexpectedClose tag =>
      obtain ⟨p, m, hp, hword, rfl⟩ := h
      exact .inr ⟨p, m, [], hp, hword, rfl⟩
    | mismatchedClose expected found =>
      obtain ⟨p, n, m, hp, hn, rfl, rfl⟩ := h
      obtain ⟨stack, hstack⟩ := hn.exists_leaves hp.viable
      exact .inr ⟨p, m, n :: stack, hp, hstack, rfl⟩
    | unclosed tag =>
      obtain ⟨hviable, n, hn, rfl⟩ := h
      obtain ⟨stack, hstack⟩ := hn.exists_leaves hviable
      exact .inl ⟨n :: stack, hstack, rfl⟩
    | notMarkup => exact h.elim
  · exact .inl ⟨[], h, rfl⟩

/-- There is one verdict on a list of parentheses. -/
theorem Verdict.unique {r r' : Except Imbalance Unit} (h : Verdict w r) (h' : Verdict w r') : r = r' := by
  have hapart : ∀ {p : List Paren} {stack : List Text}, Leaves stack w → ¬ Fault w p := fun hstack hp =>
    hp.not_viable (hstack.viable.of_isPrefix hp.isPrefix)
  rcases h.exists_leaves with ⟨stack, hstack, rfl⟩ | ⟨p, m, stack, hp, hstack, rfl⟩ <;>
    rcases h'.exists_leaves with ⟨stack', hstack', rfl⟩ | ⟨p', m', stack', hp', hstack', rfl⟩
  · rw [hstack.unique hstack']
  · exact absurd hp' (hapart hstack)
  · exact absurd hp (hapart hstack')
  · obtain ⟨rfl, hm⟩ := List.append_inj' (hp.unique hp') rfl
    obtain rfl : m = m' := by simpa using hm
    rw [hstack.unique hstack']

/-- A closing parenthesis is at fault exactly if the parentheses are not viable. -/
theorem Verdict.not_viable_iff {r : Except Imbalance Unit} (h : Verdict w r) :
    ¬ Viable w ↔ (∃ tag, r = .error (.unexpectedClose tag)) ∨
      ∃ expected found, r = .error (.mismatchedClose expected found) := by
  rcases r with fault | ⟨⟩
  · cases fault with
    | unexpectedClose tag =>
      obtain ⟨p, m, hp, -⟩ := h
      simpa using fun hw : Viable w => hp.not_viable (hw.of_isPrefix hp.isPrefix)
    | mismatchedClose expected found =>
      obtain ⟨p, n, m, hp, -⟩ := h
      simpa using fun hw : Viable w => hp.not_viable (hw.of_isPrefix hp.isPrefix)
    | unclosed tag => simpa using h.1
    | notMarkup => exact h.elim
  · simpa using (leaves_nil_iff.2 h).viable

theorem verdict_unclosed_iff : (∃ tag, Verdict w (.error (.unclosed tag))) ↔ Viable w ∧ ¬ Word w := by
  constructor
  · rintro ⟨tag, h⟩
    exact ⟨h.1, fun hword => by simpa using Verdict.unique (r := .ok ()) hword h⟩
  · rintro ⟨hviable, hword⟩
    obtain ⟨stack, hstack⟩ := Leaves.exists_of_viable hviable
    cases stack with
    | nil => exact absurd hstack hword
    | cons n stack => exact ⟨n.lower, hviable, n, hstack.innermost, rfl⟩

theorem viable_iff_forall_isPrefix : Viable w ↔ ∀ p, p <+: w → Viable p :=
  ⟨fun h _ hp => h.of_isPrefix hp, fun h => h w (List.prefix_refl w)⟩

theorem checkTags_eq_iff {ts : List Tag} {r : Except Imbalance Unit} :
    checkTags [] ts = r ↔ Verdict (ts.filterMap Tag.paren?) r := by
  have hverdict := verdict_checkTags (leaves_nil_iff.2 .nil) ts
  exact ⟨fun h => h ▸ hverdict, hverdict.unique⟩

end Paren

namespace Markup

open Paren (Word Viable Innermost Fault)

theorem delimited_iff_trim {t : Text} : delimited t = true ↔ ['<'] <+: t.trim ∧ ['>'] <:+ t.trim := by
  simp [delimited, List.singleton_prefix_iff_head?_eq_some, List.singleton_suffix_iff_getLast?_eq_some]

theorem check_eq_error_iff {t : Text} {fault : Imbalance} (h : fault ≠ .notMarkup) :
    check t = .error fault ↔ checkTags [] (ofText t).tags = .error fault := by
  unfold check
  cases checkTags [] (ofText t).tags with
  | error fault' => simp
  | ok u => cases delimited t <;> simp [Ne.symm h]

theorem check_eq_notMarkup_iff {t : Text} :
    check t = .error .notMarkup ↔ checkTags [] (ofText t).tags = .ok () ∧ ¬ delimited t = true := by
  have hne := checkTags_ne_notMarkup [] (ofText t).tags
  unfold check
  cases h : checkTags [] (ofText t).tags with
  | error fault =>
    rw [h] at hne
    simpa using hne
  | ok u => cases delimited t <;> simp

/-- The check accepts a text whose tags make up a word of the grammar and which starts and ends with a tag. It reports
a closing tag if the tags begin as no word does, and then the one that the shortest such beginning ends with: as
mismatched with the innermost open element, or as unexpected if nothing is open. It reports the innermost open element
if all beginnings are viable and elements stay open, and missing delimiters if nothing else is wrong. -/
theorem check_iff (t : Text) :
    (check t = .ok () ↔ Word (parens t) ∧ ['<'] <+: t.trim ∧ ['>'] <:+ t.trim) ∧
    ((∃ tag, check t = .error (.unexpectedClose tag)) ∨
        (∃ expected found, check t = .error (.mismatchedClose expected found)) ↔
      ∃ p, p <+: parens t ∧ ¬ Viable p) ∧
    (∀ tag, check t = .error (.unexpectedClose tag) ↔
      ∃ p m, Fault (parens t) (p ++ [.closing m]) ∧ Word p ∧ m.lower = tag) ∧
    (∀ expected found, check t = .error (.mismatchedClose expected found) ↔
      ∃ p n m, Fault (parens t) (p ++ [.closing m]) ∧ Innermost n p ∧ n.lower = expected ∧ m.lower = found) ∧
    ((∃ tag, check t = .error (.unclosed tag)) ↔ (∀ p, p <+: parens t → Viable p) ∧ ¬ Word (parens t)) ∧
    (∀ tag, check t = .error (.unclosed tag) ↔
      (∀ p, p <+: parens t → Viable p) ∧ ∃ n, Innermost n (parens t) ∧ n.lower = tag) ∧
    (check t = .error .notMarkup ↔ Word (parens t) ∧ ¬ (['<'] <+: t.trim ∧ ['>'] <:+ t.trim)) := by
  have hverdict : ∀ {r}, checkTags [] (ofText t).tags = r ↔ Paren.Verdict (parens t) r :=
    Paren.checkTags_eq_iff
  have hfault : ∀ {fault}, fault ≠ .notMarkup →
      (check t = .error fault ↔ Paren.Verdict (parens t) (.error fault)) := fun hne =>
    (check_eq_error_iff hne).trans hverdict
  have hbegins : (∃ p, p <+: parens t ∧ ¬ Viable p) ↔ ¬ Viable (parens t) := by
    rw [Paren.viable_iff_forall_isPrefix]
    push Not
    rfl
  refine ⟨?_, ?_, fun tag => hfault (by simp), fun expected found => hfault (by simp), ?_, fun tag => ?_, ?_⟩
  · rw [check_eq_ok_iff, delimited_iff_trim]
    exact and_congr_left fun _ => hverdict
  · rw [hbegins, (hverdict.1 rfl).not_viable_iff]
    simp only [check_eq_error_iff, ne_eq, reduceCtorEq, not_false_eq_true]
  · rw [← Paren.viable_iff_forall_isPrefix, ← Paren.verdict_unclosed_iff]
    exact exists_congr fun tag => hfault (by simp)
  · rw [← Paren.viable_iff_forall_isPrefix]
    exact hfault (by simp)
  · rw [check_eq_notMarkup_iff, delimited_iff_trim]
    exact and_congr_left fun _ => hverdict

end Markup
end HtmlTemplate
