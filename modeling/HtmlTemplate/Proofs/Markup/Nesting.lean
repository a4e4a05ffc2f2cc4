import HtmlTemplate.Markup.Balance
import HtmlTemplate.Markup.Span
import HtmlTemplate.Proofs.Markup.Holes
import Mathlib

/-!
# Nested tags

Tags that pass the check are those of a forest of elements (`Forest.exists_of_checkTags`), and a forest
says more than the check does: where the span of an element ends (`Forest.cutSpan_element`), what is
left of the tags when other elements take its place (`Forest.exists_span`), and how often elements can
be repeated before none is left to repeat (`Forest.weight`).
-/

namespace HtmlTemplate

namespace Markup

theorem checkTags_of_not_closing {tag : Tag} (h : tag.closing = false) (stack : List Text) (ts : List Tag) :
    checkTags stack (tag :: ts) =
      checkTags (if tag.opensScope then tag.name.lower :: stack else stack) ts := by
  cases hopens : tag.opensScope <;> cases stack <;> simp [checkTags, h, hopens]

theorem checkTags_cons_iff {stack : List Text} {tag : Tag} {ts : List Tag} :
    checkTags stack (tag :: ts) = .ok () ↔
      (tag.closing = true ∧ ∃ below, stack = tag.name.lower :: below ∧ checkTags below ts = .ok ()) ∨
      (tag.closing = false ∧
        checkTags (if tag.opensScope then tag.name.lower :: stack else stack) ts = .ok ()) := by
  cases hclosing : tag.closing with
  | true =>
    cases stack with
    | nil => simp [checkTags, hclosing]
    | cons n stack =>
      rw [checkTags, if_pos hclosing]
      split
      · next hname => simp [hname]
      · next hname => simp [hname]
  | false => simp [checkTags_of_not_closing hclosing]

end Markup

/-- A forest of elements, given by its tags. -/
inductive Forest where
  | nil
  /-- A tag that opens nothing. -/
  | single (tag : Tag) (rest : Forest)
  | element (opening : Tag) (inside : Forest) (closing : Tag) (rest : Forest)

namespace Forest

def tags : Forest → List Tag
  | nil => []
  | single tag rest => tag :: rest.tags
  | element opening inside closing rest => opening :: (inside.tags ++ closing :: rest.tags)

/-- Every tag is of the kind that its place asks for, and the tags of an element go together. -/
def Matched : Forest → Prop
  | nil => True
  | single tag rest => tag.closing = false ∧ tag.opensScope = false ∧ rest.Matched
  | element opening inside closing rest =>
    opening.opensScope = true ∧ closing.closing = true ∧
      closing.name.lower = opening.name.lower ∧ inside.Matched ∧ rest.Matched

def append : Forest → Forest → Forest
  | nil, forest => forest
  | single tag rest, forest => single tag (rest.append forest)
  | element opening inside closing rest, forest =>
    element opening inside closing (rest.append forest)

@[simp] theorem tags_append (F G : Forest) : (F.append G).tags = F.tags ++ G.tags := by
  induction F with
  | nil => rfl
  | single tag rest ih => simp [append, tags, ih]
  | element opening inside closing rest _ ih => simp [append, tags, ih]

theorem Matched.append {F G : Forest} (hF : F.Matched) (hG : G.Matched) : (F.append G).Matched := by
  induction F with
  | nil => exact hG
  | single tag rest ih => exact ⟨hF.1, hF.2.1, ih hF.2.2⟩
  | element opening inside closing rest _ ih =>
    obtain ⟨hopen, hclose, hname, hinside, hrest⟩ := hF
    exact ⟨hopen, hclose, hname, hinside, ih hrest⟩

/-! ## The check -/

theorem not_closing_of_opensScope {tag : Tag} (h : tag.opensScope = true) : tag.closing = false := by
  simp only [Tag.opensScope, Bool.and_eq_true, Bool.not_eq_true'] at h
  exact h.1.1

open Markup (checkTags)

theorem checkTags_tags {F : Forest} (hF : F.Matched) (stack : List Text) (ts : List Tag) :
    checkTags stack (F.tags ++ ts) = checkTags stack ts := by
  induction F generalizing stack ts with
  | nil => rfl
  | single tag rest ih =>
    obtain ⟨hclosing, hopens, hrest⟩ := hF
    rw [tags, List.cons_append, Markup.checkTags_of_not_closing hclosing, hopens]
    exact ih hrest stack ts
  | element opening inside closing rest ihInside ihRest =>
    obtain ⟨hopen, hclose, hname, hinside, hrest⟩ := hF
    have hstep : checkTags (opening.name.lower :: stack) (closing :: (rest.tags ++ ts)) =
        checkTags stack (rest.tags ++ ts) := by
      rw [checkTags, if_pos hclose, hname]
      simp
    rw [tags, List.cons_append, List.append_assoc, List.cons_append,
      Markup.checkTags_of_not_closing (not_closing_of_opensScope hopen), if_pos hopen, ihInside hinside, hstep,
      ihRest hrest]

/-- Tags that the check accepts after some elements have been opened are those of a forest, and then,
for each of these elements, its closing tag and a forest. -/
theorem exists_of_checkTags_stack {stack : List Text} {ts : List Tag}
    (h : checkTags stack ts = .ok ()) :
    ∃ F : Forest, F.Matched ∧
      match stack with
      | [] => ts = F.tags
      | innermost :: stack => ∃ (closing : Tag) (us : List Tag), ts = F.tags ++ closing :: us ∧
          closing.closing = true ∧ closing.name.lower = innermost ∧ checkTags stack us = .ok () := by
  induction hn : ts.length using Nat.strong_induction_on generalizing stack ts with
  | _ n ih =>
    cases ts with
    | nil =>
      cases stack with
      | nil => exact ⟨nil, trivial, rfl⟩
      | cons innermost stack => simp [checkTags] at h
    | cons tag ts =>
      have hlen : ts.length < n := by simp [← hn]
      rcases Markup.checkTags_cons_iff.1 h with ⟨hclosing, below, rfl, hbelow⟩ | ⟨hclosing, hafter⟩
      · exact ⟨nil, trivial, tag, ts, rfl, hclosing, rfl, hbelow⟩
      · cases hopens : tag.opensScope with
        | true =>
          rw [if_pos hopens] at hafter
          obtain ⟨F, hF, closing, us, rfl, hclose, hname, hus⟩ := ih _ hlen hafter rfl
          have hlen' : us.length < n := by
            simp only [List.length_append, List.length_cons] at hlen
            omega
          obtain ⟨G, hG, hrest⟩ := ih _ hlen' hus rfl
          refine ⟨element tag F closing G, ⟨hopens, hclose, hname, hF, hG⟩, ?_⟩
          cases stack with
          | nil => simpa [tags] using hrest
          | cons innermost stack =>
            obtain ⟨closing', us', rfl, hrest⟩ := hrest
            exact ⟨closing', us', by simp [tags], hrest⟩
        | false =>
          rw [hopens, if_neg Bool.false_ne_true] at hafter
          obtain ⟨F, hF, hrest⟩ := ih _ hlen hafter rfl
          refine ⟨single tag F, ⟨hclosing, hopens, hF⟩, ?_⟩
          cases stack with
          | nil => simpa [tags] using hrest
          | cons innermost stack =>
            obtain ⟨closing', us', rfl, hrest⟩ := hrest
            exact ⟨closing', us', by simp [tags], hrest⟩

theorem checkTags_eq_ok_iff {ts : List Tag} :
    checkTags [] ts = .ok () ↔ ∃ F : Forest, F.Matched ∧ F.tags = ts := by
  constructor
  · intro h
    obtain ⟨F, hF, hts⟩ := exists_of_checkTags_stack h
    exact ⟨F, hF, hts.symm⟩
  · rintro ⟨F, hF, rfl⟩
    have := checkTags_tags hF [] []
    rwa [List.append_nil] at this

end Forest

namespace Markup

/-- The tags of a text close in order. The text need not start and end with a tag. -/
def Balanced (t : Text) : Prop := check t = .ok () ∨ check t = .error .notMarkup

theorem checkTags_ne_notMarkup (stack : List Text) (ts : List Tag) :
    checkTags stack ts ≠ .error .notMarkup := by
  induction ts generalizing stack with
  | nil => cases stack <;> simp [checkTags]
  | cons tag ts ih =>
    cases hclosing : tag.closing with
    | true =>
      cases stack with
      | nil => simp [checkTags, hclosing]
      | cons innermost stack =>
        rw [checkTags, if_pos hclosing]
        split
        · exact ih _
        · simp
    | false =>
      rw [checkTags_of_not_closing hclosing]
      exact ih _

theorem balanced_iff {t : Text} : Balanced t ↔ checkTags [] (ofText t).tags = .ok () := by
  have hne := checkTags_ne_notMarkup [] (ofText t).tags
  unfold Balanced check
  cases h : checkTags [] (ofText t).tags with
  | error fault =>
    rw [h] at hne
    simpa using hne
  | ok u => cases hdelimited : delimited t <;> simp

end Markup

/-! ## Spans -/

namespace Markup

theorem eq_map_char_of_tags_eq_nil {m : Markup} (h : m.tags = []) : ∃ r : Text, m = r.map .char := by
  induction m with
  | nil => exact ⟨[], rfl⟩
  | cons piece m ih =>
    cases piece with
    | char c =>
      obtain ⟨r, rfl⟩ := ih h
      exact ⟨c :: r, rfl⟩
    | lexeme tag => simp at h

theorem exists_of_tags_eq_cons {m : Markup} {tag : Tag} {ts : List Tag} (h : m.tags = tag :: ts) :
    ∃ (r : Text) (m' : Markup), m = r.map .char ++ .lexeme tag :: m' ∧ m'.tags = ts := by
  induction m with
  | nil => simp at h
  | cons piece m ih =>
    cases piece with
    | char c =>
      obtain ⟨r, m', rfl, hts⟩ := ih h
      exact ⟨c :: r, m', rfl, hts⟩
    | lexeme tag' =>
      obtain ⟨rfl, rfl⟩ := List.cons.inj h
      exact ⟨[], m, rfl, rfl⟩

theorem exists_of_tags_eq_append {m : Markup} {ts us : List Tag} {tag : Tag}
    (h : m.tags = ts ++ tag :: us) :
    ∃ m₁ m₂ : Markup, m = m₁ ++ .lexeme tag :: m₂ ∧ m₁.tags = ts ∧ m₂.tags = us := by
  induction ts generalizing m with
  | nil =>
    obtain ⟨r, m', rfl, hus⟩ := exists_of_tags_eq_cons h
    exact ⟨r.map .char, m', rfl, by simp, hus⟩
  | cons tag' ts ih =>
    obtain ⟨r, m', rfl, hrest⟩ := exists_of_tags_eq_cons h
    obtain ⟨m₁, m₂, rfl, hts, hus⟩ := ih hrest
    exact ⟨r.map .char ++ .lexeme tag' :: m₁, m₂, by simp, by simp [hts], hus⟩

theorem cutAtClose_map_char (name : Text) (depth : Nat) (r : Text) (m : Markup) :
    cutAtClose name depth (r.map .char ++ m) =
      (cutAtClose name depth m).map fun (inside, rest) => (r.map .char ++ inside, rest) := by
  induction r with
  | nil => simp
  | cons c r ih =>
    rw [List.map_cons, List.cons_append, cutAtClose, ih, Option.map_map]
    rfl

theorem cutAtClose_not_closing {tag : Tag} (h : tag.closing = false) (name : Text) (depth : Nat)
    (m : Markup) :
    cutAtClose name depth (.lexeme tag :: m) =
      (cutAtClose name (if tag.named name && tag.opensScope then depth + 1 else depth) m).map
        fun (inside, rest) => (.lexeme tag :: inside, rest) := by
  cases depth <;> simp [cutAtClose, h]

end Markup

namespace Forest

open Markup (cutAtClose cutSpan)

theorem cutAtClose_tags {F : Forest} (hF : F.Matched) {m₁ : Markup} (h : m₁.tags = F.tags)
    (name : Text) (depth : Nat) (m : Markup) :
    cutAtClose name depth (m₁ ++ m) =
      (cutAtClose name depth m).map fun (inside, rest) => (m₁ ++ inside, rest) := by
  induction F generalizing m₁ depth m with
  | nil =>
    obtain ⟨r, rfl⟩ := Markup.eq_map_char_of_tags_eq_nil h
    exact Markup.cutAtClose_map_char name depth r m
  | single tag rest ih =>
    obtain ⟨hclosing, hopens, hrest⟩ := hF
    obtain ⟨r, m₂, rfl, hm₂⟩ := Markup.exists_of_tags_eq_cons h
    rw [List.append_assoc, Markup.cutAtClose_map_char, List.cons_append,
      Markup.cutAtClose_not_closing hclosing]
    simp only [hopens, Bool.and_false, Bool.false_eq_true, if_false]
    rw [ih hrest hm₂, Option.map_map, Option.map_map]
    congr 1
    funext found
    simp
  | element opening inside closing rest ihInside ihRest =>
    obtain ⟨hopen, hclose, hname, hinside, hrest⟩ := hF
    obtain ⟨r, m₂, rfl, hm₂⟩ := Markup.exists_of_tags_eq_cons h
    obtain ⟨m₃, m₄, rfl, hm₃, hm₄⟩ := Markup.exists_of_tags_eq_append hm₂
    have hnot := not_closing_of_opensScope hopen
    have hnamed : closing.named name = opening.named name := by
      simp only [Tag.named, Text.sameUpToCase, hname]
    have hclosing : cutAtClose name (if opening.named name && opening.opensScope then depth + 1 else depth)
        (.lexeme closing :: (m₄ ++ m)) =
          (cutAtClose name depth (m₄ ++ m)).map fun (i, rest) => (.lexeme closing :: i, rest) := by
      have hopens : closing.opensScope = false := by simp [Tag.opensScope, hclose]
      cases hn : opening.named name <;> simp [cutAtClose, hclose, hnamed, hn, hopen]
    rw [List.append_assoc, Markup.cutAtClose_map_char, List.cons_append,
      Markup.cutAtClose_not_closing hnot, List.append_assoc, ihInside hinside hm₃, List.cons_append, hclosing, ihRest hrest hm₄]
    simp only [Option.map_map]
    congr 1
    funext found
    simp

/-- The span of an element ends with the closing tag of its pair. -/
theorem cutSpan_element {opening closing : Tag} {F : Forest} (hF : F.Matched)
    (hopen : opening.opensScope = true) (hclose : closing.closing = true)
    (hname : closing.name.lower = opening.name.lower) {m₁ : Markup} (h : m₁.tags = F.tags)
    (m₂ : Markup) :
    cutSpan opening (m₁ ++ .lexeme closing :: m₂) = some (m₁ ++ [.lexeme closing], m₂) := by
  have hnamed : closing.named opening.name = true := by
    simp [Tag.named, Text.sameUpToCase, hname]
  rw [cutSpan, if_pos hopen, cutAtClose_tags hF h]
  simp [cutAtClose, hnamed, hclose]

/-! ## Weights -/

/-- A bound for the rounds that it takes to repeat elements, each fewer than `b` times for each of its
`load`s, until none is left to repeat. -/
def weight (b : Nat) (load : Tag → Nat) : Forest → Nat
  | nil => 0
  | single tag rest => b ^ load tag - 1 + weight b load rest
  | element opening inside _ rest =>
    b ^ load opening * (weight b load inside + 1) - 1 + weight b load rest

@[simp] theorem weight_append (b : Nat) (load : Tag → Nat) (F G : Forest) :
    (F.append G).weight b load = F.weight b load + G.weight b load := by
  induction F with
  | nil => simp [append, weight]
  | single tag rest ih =>
    simp only [append, weight, ih]
    omega
  | element opening inside closing rest _ ih =>
    simp only [append, weight, ih]
    omega

theorem weight_lt_pow {b : Nat} (hb : 0 < b) (load : Tag → Nat) (F : Forest) :
    F.weight b load + 1 ≤ b ^ (F.tags.map load).sum := by
  induction F with
  | nil => simp [weight, tags]
  | single tag rest ih =>
    have hpos : 0 < b ^ load tag := Nat.pow_pos hb
    have hmul : b ^ load tag + b ^ (rest.tags.map load).sum ≤
        b ^ load tag * b ^ (rest.tags.map load).sum + 1 := by
      have hpos' : 0 < b ^ (rest.tags.map load).sum := Nat.pow_pos hb
      nlinarith
    simp only [weight, tags, List.map_cons, List.sum_cons, Nat.pow_add]
    omega
  | element opening inside closing rest ihInside ihRest =>
    have hle : b ^ load opening * (weight b load inside + 1) ≤
        b ^ load opening * b ^ (inside.tags.map load).sum := Nat.mul_le_mul_left _ ihInside
    have hpos : 0 < b ^ load opening * b ^ (inside.tags.map load).sum :=
      Nat.mul_pos (Nat.pow_pos hb) (Nat.pow_pos hb)
    have hpos' : 0 < b ^ (rest.tags.map load).sum := Nat.pow_pos hb
    have hmul : b ^ load opening * b ^ (inside.tags.map load).sum + b ^ (rest.tags.map load).sum ≤
        b ^ load opening * b ^ (inside.tags.map load).sum * b ^ (rest.tags.map load).sum + 1 := by
      nlinarith
    have hclosing : b ^ (rest.tags.map load).sum ≤ b ^ (load closing + (rest.tags.map load).sum) :=
      Nat.pow_le_pow_right hb (Nat.le_add_left _ _)
    have htotal : b ^ load opening * b ^ (inside.tags.map load).sum * b ^ (rest.tags.map load).sum ≤
        b ^ load opening * b ^ (inside.tags.map load).sum *
          b ^ (load closing + (rest.tags.map load).sum) := Nat.mul_le_mul_left _ hclosing
    have hsum : ((element opening inside closing rest).tags.map load).sum =
        load opening + (inside.tags.map load).sum + (load closing + (rest.tags.map load).sum) := by
      simp [tags, Nat.add_assoc]
    rw [hsum, Nat.pow_add, Nat.pow_add b (load opening)]
    simp only [weight]
    omega

/-! ## Exchanging elements -/

/-- Elements stand in a forest between these tags, and others may take their place: the tags around them stay, and
where the others are lighter the forest gets lighter. -/
def Seat (F : Forest) (front : List Tag) (E : Forest) (after : List Tag) : Prop :=
  ∀ G : Forest, G.Matched → ∃ F' : Forest, F'.Matched ∧ F'.tags = front ++ G.tags ++ after ∧
    ∀ b load, 0 < b → G.weight b load < E.weight b load → F'.weight b load < F.weight b load

section Seat

variable {F inside tail E : Forest} {tag opening closing : Tag} {front after : List Tag}

theorem seat_append (htail : tail.Matched) : Seat (E.append tail) [] E tail.tags := by
  intro G hG
  refine ⟨G.append tail, hG.append htail, by simp, fun b load _ hlt => ?_⟩
  simp only [weight_append]
  omega

theorem Seat.single_rest (h : Seat F front E after) (hclosing : tag.closing = false) (hopens : tag.opensScope = false) :
    Seat (single tag F) (tag :: front) E after := by
  intro G hG
  obtain ⟨F', hF', htags, hweight⟩ := h G hG
  refine ⟨.single tag F', ⟨hclosing, hopens, hF'⟩, by simp [tags, htags], fun b load hb hlt => ?_⟩
  have := hweight b load hb hlt
  simp only [weight]
  omega

theorem Seat.element_rest (h : Seat tail front E after) (hopen : opening.opensScope = true)
    (hclose : closing.closing = true) (hname : closing.name.lower = opening.name.lower) (hinside : inside.Matched) :
    Seat (element opening inside closing tail) (opening :: (inside.tags ++ closing :: front)) E after := by
  intro G hG
  obtain ⟨F', hF', htags, hweight⟩ := h G hG
  refine ⟨element opening inside closing F', ⟨hopen, hclose, hname, hinside, hF'⟩, by simp [tags, htags],
    fun b load hb hlt => ?_⟩
  have := hweight b load hb hlt
  simp only [weight]
  omega

theorem Seat.element_inside (h : Seat inside front E after) (hopen : opening.opensScope = true)
    (hclose : closing.closing = true) (hname : closing.name.lower = opening.name.lower) (htail : tail.Matched) :
    Seat (element opening inside closing tail) (opening :: front) E (after ++ closing :: tail.tags) := by
  intro G hG
  obtain ⟨F', hF', htags, hweight⟩ := h G hG
  refine ⟨element opening F' closing tail, ⟨hopen, hclose, hname, hF', htail⟩, by simp [tags, htags],
    fun b load hb hlt => ?_⟩
  have hlt' := hweight b load hb hlt
  have hpos : 0 < b ^ load opening := Nat.pow_pos hb
  have hmul : b ^ load opening * (F'.weight b load + 1) < b ^ load opening * (inside.weight b load + 1) :=
    Nat.mul_lt_mul_of_pos_left (by omega) hpos
  have hone : 0 < b ^ load opening * (F'.weight b load + 1) := Nat.mul_pos hpos (Nat.succ_pos _)
  simp only [weight]
  omega

end Seat

/-- Where an opening tag stands in a forest, an element begins, and any forest may take its place. -/
theorem exists_span {F : Forest} (hF : F.Matched) {front rest : List Tag} {o : Tag}
    (h : F.tags = front ++ o :: rest) (ho : o.closing = false) :
    ∃ (E : Forest) (after : List Tag), E.Matched ∧ o :: rest = E.tags ++ after ∧
      (E = single o nil ∨ ∃ inside closing, E = element o inside closing nil) ∧ Seat F front E after := by
  induction F generalizing front rest with
  | nil => simp [tags] at h
  | single tag tail ih =>
    obtain ⟨hclosing, hopens, htail⟩ := hF
    cases front with
    | nil =>
      obtain ⟨rfl, rfl⟩ := List.cons.inj h
      exact ⟨single tag nil, tail.tags, ⟨hclosing, hopens, trivial⟩, rfl, .inl rfl, seat_append htail⟩
    | cons tag' front =>
      obtain ⟨rfl, hrest⟩ := List.cons.inj h
      obtain ⟨E, after, hE, hspan, hshape, hseat⟩ := ih htail hrest
      exact ⟨E, after, hE, hspan, hshape, hseat.single_rest hclosing hopens⟩
  | element opening inside closing tail ihInside ihTail =>
    obtain ⟨hopen, hclose, hname, hinside, htail⟩ := hF
    have hne : o ≠ closing := by
      rintro rfl
      simp [hclose] at ho
    cases front with
    | nil =>
      obtain ⟨rfl, rfl⟩ := List.cons.inj h
      exact ⟨element opening inside closing nil, tail.tags, ⟨hopen, hclose, hname, hinside, trivial⟩,
        by simp [tags], .inr ⟨inside, closing, rfl⟩, seat_append htail⟩
    | cons tag' front =>
      obtain ⟨rfl, hrest⟩ := List.cons.inj h
      -- the tag stands inside the element or behind it, and is not its closing tag
      rcases List.append_eq_append_iff.1 hrest with ⟨x, rfl, htags⟩ | ⟨x, hin, htags⟩
      · cases x with
        | nil => exact absurd (List.cons.inj htags).1.symm hne
        | cons closing' x =>
          obtain ⟨rfl, hx⟩ := List.cons.inj htags
          obtain ⟨E, after, hE, hspan, hshape, hseat⟩ := ihTail htail hx
          exact ⟨E, after, hE, hspan, hshape, hseat.element_rest hopen hclose hname hinside⟩
      · cases x with
        | nil => exact absurd (List.cons.inj htags).1 hne
        | cons o' x =>
          obtain ⟨rfl, rfl⟩ := List.cons.inj htags
          obtain ⟨E, after, hE, hspan, hshape, hseat⟩ := ihInside hinside hin
          refine ⟨E, after ++ closing :: tail.tags, hE, ?_, hshape, hseat.element_inside hopen hclose hname htail⟩
          rw [← List.append_assoc, ← hspan]
          rfl

/-! ## Elements of nested markup -/

/-- The element that an opening tag begins, with the markup from the tag to the end of its span. -/
structure Element (o : Tag) (inside : Markup) (E : Forest) : Prop where
  matched : E.Matched
  tags : E.tags = o :: inside.tags
  shape : E = single o nil ∨ ∃ I closing, E = element o I closing nil
  ends : inside = [] ∨ ∃ (i : Markup) (closing : Tag), inside = i ++ [.lexeme closing]
  cutSpan : ∀ post, cutSpan o (inside ++ post) = some (inside, post)

/-- Where an opening tag stands in nested markup, an element begins, and other elements may take its
place. -/
theorem exists_element {F : Forest} (hF : F.Matched) {front rest : Markup} {o : Tag}
    (h : F.tags = front.tags ++ o :: rest.tags) (ho : o.closing = false) :
    ∃ (E : Forest) (inside after : Markup), rest = inside ++ after ∧ Element o inside E ∧
      Seat F front.tags E after.tags := by
  obtain ⟨E, after, hE, hspan, hshape, hseat⟩ := exists_span hF h ho
  rcases hshape with rfl | ⟨I, closing, rfl⟩
  · obtain ⟨-, hopens, -⟩ := hE
    have hafter : after = rest.tags := by simpa [tags] using hspan.symm
    refine ⟨single o nil, [], rest, rfl, ⟨⟨ho, hopens, trivial⟩, rfl, .inl rfl, .inl rfl, fun post => ?_⟩,
      hafter ▸ hseat⟩
    rw [Markup.cutSpan, if_neg (by simp [hopens])]
    rfl
  · obtain ⟨hopens, hclose, hname, hI, -⟩ := hE
    have hrest : rest.tags = I.tags ++ closing :: after := by simpa [tags] using hspan
    obtain ⟨i, m, rfl, hi, rfl⟩ := Markup.exists_of_tags_eq_append hrest
    refine ⟨element o I closing nil, i ++ [.lexeme closing], m, by simp,
      ⟨⟨hopens, hclose, hname, hI, trivial⟩, by simp [tags, hi], .inr ⟨I, closing, rfl⟩,
        .inr ⟨i, closing, rfl⟩, fun post => ?_⟩, hseat⟩
    rw [List.append_assoc, List.singleton_append]
    exact cutSpan_element hI hopens hclose hname hi post

theorem Element.alone_or_closed {o : Tag} {inside : Markup} {E : Forest} (h : Element o inside E) :
    (E = single o nil ∧ inside = []) ∨
      ∃ (I : Forest) (i : Markup) (c : Tag), E = element o I c nil ∧ inside = i ++ [.lexeme c] ∧ I.tags = i.tags := by
  rcases h.shape with rfl | ⟨I, c, rfl⟩
  · have htags : inside.tags = [] := by simpa [Forest.tags] using h.tags.symm
    rcases h.ends with rfl | ⟨i, c, rfl⟩
    · exact .inl ⟨rfl, rfl⟩
    · simp at htags
  · have htags : inside.tags = I.tags ++ [c] := by simpa [Forest.tags] using h.tags.symm
    rcases h.ends with rfl | ⟨i, c', rfl⟩
    · simp at htags
    · rw [Markup.tags_append] at htags
      obtain ⟨hi, hc⟩ := List.append_inj' htags rfl
      obtain rfl : c' = c := (List.cons.inj hc).1
      exact .inr ⟨I, i, c', rfl, rfl, hi.symm⟩

theorem Element.exists_closing {o : Tag} {inside : Markup} {E : Forest} (h : Element o inside E)
    (hopens : o.opensScope = true) :
    ∃ (i : Markup) (c : Tag), inside = i ++ [.lexeme c] ∧ c.closing = true ∧ c.name.lower = o.name.lower ∧
      Markup.checkTags [] i.tags = .ok () := by
  rcases h.alone_or_closed with ⟨rfl, -⟩ | ⟨I, i, c, rfl, hinside, hi⟩
  · exact absurd hopens (by simp [h.matched.2.1])
  · obtain ⟨-, hclose, hname, hI, -⟩ := h.matched
    exact ⟨i, c, hinside, hclose, hname, checkTags_eq_ok_iff.2 ⟨I, hI, hi⟩⟩

/-! ## Copies -/

/-- A tag that may stand for another one and is repeated no more often. -/
structure Same (load : Tag → Nat) (s t : Tag) : Prop where
  closing : t.closing = s.closing
  name : t.name.lower = s.name.lower
  opensScope : t.opensScope = s.opensScope
  load : load t ≤ load s

theorem exists_of_forall₂_append {α β : Type} {R : α → β → Prop} {l₁ l₂ : List α} {l : List β}
    (h : List.Forall₂ R (l₁ ++ l₂) l) :
    ∃ u v, List.Forall₂ R l₁ u ∧ List.Forall₂ R l₂ v ∧ l = u ++ v := by
  induction l₁ generalizing l with
  | nil => exact ⟨[], l, .nil, h, rfl⟩
  | cons a l₁ ih =>
    obtain ⟨b, l', hab, hl', rfl⟩ := List.forall₂_cons_left_iff.1 h
    obtain ⟨u, v, hu, hv, rfl⟩ := ih hl'
    exact ⟨b :: u, v, .cons hab hu, hv, rfl⟩

theorem exists_same {load : Tag → Nat} {F : Forest} (hF : F.Matched) {ts : List Tag}
    (h : List.Forall₂ (Same load) F.tags ts) :
    ∃ F' : Forest, F'.Matched ∧ F'.tags = ts ∧ ∀ b, 0 < b → F'.weight b load ≤ F.weight b load := by
  induction F generalizing ts with
  | nil =>
    cases h
    exact ⟨nil, trivial, rfl, fun _ _ => le_rfl⟩
  | single tag rest ih =>
    obtain ⟨hclosing, hopens, hrest⟩ := hF
    obtain ⟨t, ts, hsame, hts, rfl⟩ := List.forall₂_cons_left_iff.1 h
    obtain ⟨F', hF', rfl, hweight⟩ := ih hrest hts
    refine ⟨single t F', ⟨hsame.closing.trans hclosing, hsame.opensScope.trans hopens, hF'⟩, rfl,
      fun b hb => ?_⟩
    have hpow : b ^ load t ≤ b ^ load tag := Nat.pow_le_pow_right hb hsame.load
    have := hweight b hb
    simp only [weight]
    omega
  | element opening inside closing rest ihInside ihRest =>
    obtain ⟨hopen, hclose, hname, hinside, hrest⟩ := hF
    obtain ⟨o, ts, hsame, hts, rfl⟩ := List.forall₂_cons_left_iff.1 h
    obtain ⟨us, vs, hus, hvs, rfl⟩ := exists_of_forall₂_append hts
    obtain ⟨c, ws, hsame', hws, rfl⟩ := List.forall₂_cons_left_iff.1 hvs
    obtain ⟨I, hI, rfl, hweight⟩ := ihInside hinside hus
    obtain ⟨F', hF', rfl, hweight'⟩ := ihRest hrest hws
    refine ⟨element o I c F', ⟨hsame.opensScope.trans hopen, hsame'.closing.trans hclose, ?_, hI, hF'⟩, rfl,
      fun b hb => ?_⟩
    · rw [hsame'.name, hname, hsame.name]
    · have hpow : b ^ load o * (I.weight b load + 1) ≤ b ^ load opening * (inside.weight b load + 1) :=
        Nat.mul_le_mul (Nat.pow_le_pow_right hb hsame.load) (by have := hweight b hb; omega)
      have := hweight' b hb
      simp only [weight]
      omega

/-- An element whose opening tag is to be repeated less often leaves room for as many copies. -/
theorem Element.exists_copy {load : Tag → Nat} {o o' : Tag} {inside inside' : Markup} {E : Forest}
    (h : Element o inside E) (ho : Same load o o') (hlt : load o' < load o)
    (hinside : List.Forall₂ (Same load) inside.tags inside'.tags) :
    ∃ E' : Forest, E'.Matched ∧ E'.tags = o' :: inside'.tags ∧
      ∀ b, 0 < b → b * (E'.weight b load + 1) ≤ E.weight b load + 1 := by
  have hstep : ∀ {b : Nat}, 0 < b → b * b ^ load o' ≤ b ^ load o := fun hb => by
    rw [← Nat.pow_succ']
    exact Nat.pow_le_pow_right hb hlt
  have hE := h.matched
  rcases h.alone_or_closed with ⟨rfl, rfl⟩ | ⟨I, i, closing, rfl, rfl, hi⟩
  · obtain ⟨hclosing, hopens, -⟩ := hE
    refine ⟨single o' nil, ⟨ho.closing.trans hclosing, ho.opensScope.trans hopens, trivial⟩, ?_,
      fun b hb => ?_⟩
    · rw [List.forall₂_nil_left_iff.1 hinside]
      rfl
    · have hpos : 0 < b ^ load o' := Nat.pow_pos hb
      have hpos' : 0 < b ^ load o := Nat.pow_pos hb
      simp only [weight, Nat.add_zero]
      rw [Nat.sub_add_cancel hpos, Nat.sub_add_cancel hpos']
      exact hstep hb
  · obtain ⟨hopens, hclose, hname, hI, -⟩ := hE
    rw [Markup.tags_append, ← hi] at hinside
    obtain ⟨us, vs, hus, hvs, hsplit⟩ := exists_of_forall₂_append hinside
    obtain ⟨c, ws, hsame, hws, rfl⟩ := List.forall₂_cons_left_iff.1 hvs
    obtain rfl := List.forall₂_nil_left_iff.1 hws
    obtain ⟨I', hI', rfl, hweight⟩ := exists_same hI hus
    refine ⟨element o' I' c nil, ⟨ho.opensScope.trans hopens, hsame.closing.trans hclose, ?_, hI', trivial⟩,
      ?_, fun b hb => ?_⟩
    · rw [hsame.name, hname, ho.name]
    · simp [Forest.tags, hsplit]
    · have hpos : 0 < b ^ load o' * (I'.weight b load + 1) := Nat.mul_pos (Nat.pow_pos hb) (Nat.succ_pos _)
      have hpos' : 0 < b ^ load o * (I.weight b load + 1) := Nat.mul_pos (Nat.pow_pos hb) (Nat.succ_pos _)
      simp only [weight, Nat.add_zero]
      rw [Nat.sub_add_cancel hpos, Nat.sub_add_cancel hpos', ← Nat.mul_assoc]
      exact Nat.mul_le_mul (hstep hb) (by have := hweight b hb; omega)

end Forest

/-- Markup in which every opening tag begins an element. -/
def Markup.Closes (m : Markup) : Prop :=
  ∀ (front : Markup) (tag : Tag) (rest : Markup), m = front ++ .lexeme tag :: rest → tag.closing = false →
    ∃ E inside after, rest = inside ++ after ∧ Forest.Element tag inside E

theorem Markup.Closes.right {m n : Markup} (h : Closes (m ++ n)) : Closes n := by
  intro front tag rest hn
  exact h (m ++ front) tag rest (by rw [hn, List.append_assoc])

theorem Forest.closes {F : Forest} (hF : F.Matched) {m : Markup} (h : m.tags = F.tags) : m.Closes := by
  rintro front tag rest rfl htag
  obtain ⟨E, inside, after, hrest, hE, -⟩ := exists_element hF
    (show F.tags = front.tags ++ tag :: rest.tags by rw [← h]; simp) htag
  exact ⟨E, inside, after, hrest, hE⟩

end HtmlTemplate
