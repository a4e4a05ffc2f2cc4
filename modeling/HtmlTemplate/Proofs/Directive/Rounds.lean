import HtmlTemplate.Directive.Expansion
import HtmlTemplate.Proofs.Scope

/-!
# Expansion keeps elements nested

In a document whose elements are nested and whose tags are under a discipline (`Nested`), every directive
that comes up has a span, and other elements may take the place of its element (`Nested.exists_splice`).
A round of expansion lowers the weight of the elements, so expansion settles within its rounds unless a
loop is wrong (`Nested.exists_expandRounds`), and leaves such a document.
-/

namespace HtmlTemplate

open Markup (Sealed)

/-- What holds of the tags of a document while its elements are repeated and dropped. It does not depend
on paths, and stripping a directive leaves a tag for which it holds, of the same name, that opens an
element if the tag did. -/
structure Discipline where
  tag : Tag → Prop
  stable : Tag.Stable tag
  strip : ∀ ⦃t : Tag⦄, tag t → ∀ ⦃kind d⦄, Directive.ofTag? kind t = some d → ∃ t' : Tag,
    Tag.read d.stripped = some (t', []) ∧ t'.closing = t.closing ∧ t'.name = t.name ∧
      t'.opensScope = t.opensScope ∧ tag t'
  /-- The characters that keep a `<` before them from beginning a tag. -/
  firm : Char → Prop

/-- Markup whose elements are those of a forest, with tags under a discipline. -/
structure Sound (R : Discipline) (m : Markup) (F : Forest) : Prop where
  isSealed : Sealed R.firm Tag.Bare m
  kept : ∀ tag ∈ m.tags, R.tag tag
  matched : F.Matched
  tags : F.tags = m.tags

/-- A document in which the elements of `x` are those of a forest, with nothing to expand or select
around them, and no tag in its tail. -/
structure Nested (R : Discipline) (pre x post : Markup) (tail : Text) (F : Forest) : Prop where
  isSealed : Sealed R.firm Tag.Bare (pre ++ (x ++ post))
  before : ∀ tag ∈ pre.tags, tag.Bare
  after : ∀ tag ∈ post.tags, tag.Bare
  tail : '>' ∉ tail
  kept : ∀ tag ∈ x.tags, R.tag tag
  matched : F.Matched
  tags : F.tags = x.tags

def document (pre x post : Markup) (tail : Text) : Markup := pre ++ (x ++ (post ++ tail.map .char))

namespace Nested

variable {R : Discipline} {pre x post : Markup} {tail : Text} {F : Forest}

theorem ofText_text (h : Nested R pre x post tail F) :
    Markup.ofText (document pre x post tail).text = document pre x post tail := by
  have htext : (document pre x post tail).text = (pre ++ (x ++ post)).text ++ tail := by
    simp [document]
  rw [htext, Markup.ofText_append_of_not_mem_end h.tail, h.isSealed.ofText_text]
  simp [document]

theorem exists_of_find? (h : Nested R pre x post tail F) {kind : DirectiveKind} {front rest : Markup}
    {d : Directive} (hfind : Directive.find? kind (document pre x post tail) = some (front, d, rest)) :
    ∃ f r : Markup, x = f ++ .lexeme d.tag :: r ∧ front = pre ++ f ∧
      rest = r ++ (post ++ tail.map .char) ∧ Directive.ofTag? kind d.tag = some d := by
  have hd := Directive.ofTag?_of_find? hfind
  have hsplit := Directive.eq_append_of_find? hfind
  have hnot : ∀ {m : Markup}, (∀ tag ∈ m.tags, tag.Bare) → .lexeme d.tag ∉ m := by
    intro m hm hmem
    have hbare := hm d.tag (List.mem_filterMap.2 ⟨.lexeme d.tag, hmem, rfl⟩)
    simp [hbare kind] at hd
  have hafter : .lexeme d.tag ∉ post ++ tail.map Piece.char := hnot (by simpa using h.after)
  obtain ⟨f, rfl, hf⟩ := Text.exists_of_append_eq_append_cons hsplit (hnot h.before)
  rcases Text.exists_of_append_eq_cons_append hf with ⟨w, -, hw⟩ | ⟨r, hx, hr⟩
  · exact absurd (by rw [hw]; simp) hafter
  · exact ⟨f, r, hx, rfl, hr, hd⟩

theorem tag_of_find? (h : Nested R pre x post tail F) {kind : DirectiveKind} {front rest : Markup}
    {d : Directive} (hfind : Directive.find? kind (document pre x post tail) = some (front, d, rest)) :
    R.tag d.tag := by
  obtain ⟨f, r, rfl, -⟩ := h.exists_of_find? hfind
  exact h.kept d.tag (by simp)

end Nested

theorem Discipline.exists_stripped (R : Discipline) {tag : Tag} (h : R.tag tag) {kind : DirectiveKind}
    {d : Directive} (hd : Directive.ofTag? kind tag = some d) :
    ∃ tag' : Tag, d.stripped = tag'.print ∧ tag'.Proper ∧ R.tag tag' ∧ Forest.Same Tag.load tag tag' ∧
      tag'.load < tag.load := by
  obtain ⟨tag', hread, hclosing, hname, hopens, htag'⟩ := R.strip h hd
  have hprint : d.stripped = tag'.print := by simpa using Tag.eq_append_of_read hread
  have hlt := Directive.load_lt_of_ofTag? hd hprint
  exact ⟨tag', hprint, Tag.proper_of_read hread, htag', ⟨hclosing, by rw [hname], hopens, hlt.le⟩, hlt⟩

theorem exists_of_mem_forall₂ {α β : Type} {R : α → β → Prop} {l₁ : List α} {l₂ : List β}
    (h : List.Forall₂ R l₁ l₂) {b : β} (hb : b ∈ l₂) : ∃ a ∈ l₁, R a b := by
  induction h with
  | nil => simp at hb
  | cons hab _ ih =>
    rcases List.mem_cons.1 hb with rfl | hmem
    · exact ⟨_, by simp, hab⟩
    · obtain ⟨a, ha, hr⟩ := ih hmem
      exact ⟨a, List.mem_cons_of_mem _ ha, hr⟩

theorem Directive.copies_cons (item fragment : Text) (v : Value) (values : List Value) (s : Scope) :
    copies item fragment (v :: values) s =
      match Reference.retarget item (s.bind v).1 fragment with
      | .error e => (.error e, (s.bind v).2)
      | .ok copy =>
        match copies item fragment values (s.bind v).2 with
        | (.error e, s) => (.error e, s)
        | (.ok rest, s) => (.ok (copy ++ rest), s) := rfl

namespace Sound

open Directive (copies)

variable {R : Discipline}

theorem nil : Sound R [] .nil := ⟨trivial, by simp, trivial, rfl⟩

theorem append {m n : Markup} {F G : Forest} (hm : Sound R m F) (hn : Sound R n G) :
    Sound R (m ++ n) (F.append G) where
  isSealed := hm.isSealed.append hn.isSealed
  kept tag htag := by
    rw [Markup.tags_append, List.mem_append] at htag
    exact htag.elim (hm.kept tag) (hn.kept tag)
  matched := hm.matched.append hn.matched
  tags := by rw [Forest.tags_append, hm.tags, hn.tags, Markup.tags_append]

theorem exists_retarget {m : Markup} {F : Forest} (h : Sound R m F) {binding : Text}
    (hbinding : binding.IsPath) (item : Text) :
    ∃ m' F', Reference.retarget item binding m.text = .ok m'.text ∧ Sound R m' F' ∧
      ∀ b, 0 < b → F'.weight b Tag.load ≤ F.weight b Tag.load := by
  obtain ⟨m', hm', hsealed, hcopy⟩ := Reference.exists_retargetMarkup item hbinding h.isSealed
    (Forest.closes h.matched h.tags.symm)
  obtain ⟨F', hF', htags, hweight⟩ := Forest.exists_same h.matched
    (h.tags ▸ hcopy.imp fun _ _ => Tag.Copy.same)
  refine ⟨m', F', ?_, ⟨hsealed, fun tag htag => ?_, hF', htags⟩, hweight⟩
  · rw [Reference.retarget, h.isSealed.ofText_text, hm']
  · obtain ⟨tag', htag', hc⟩ := exists_of_mem_forall₂ hcopy htag
    exact hc.kept R.stable (h.kept tag' htag')

/-- One copy for each item, together no heavier than as many of the fragment. -/
theorem exists_copies {m : Markup} {E : Forest} (h : Sound R m E) (item : Text) {w : Nat}
    (values : List Value) {s : Scope} (hs : s.Narrow w) (hvalues : ∀ v ∈ values, v.widest ≤ w) :
    ∃ c G s', copies item m.text values s = (.ok c.text, s') ∧ Sound R c G ∧ s'.Narrow w ∧
      ∀ b, 0 < b → G.weight b Tag.load ≤ values.length * E.weight b Tag.load := by
  induction values generalizing s with
  | nil => exact ⟨[], .nil, s, rfl, .nil, hs, by simp [Forest.weight]⟩
  | cons v values ih =>
    rw [List.forall_mem_cons] at hvalues
    obtain ⟨m', F', hm', hsound, hweight⟩ := h.exists_retarget (s.isPath_bind v) item
    obtain ⟨c, G, s', hc, hsound', hs', hweight'⟩ := ih (hs.bind hvalues.1) hvalues.2
    refine ⟨m' ++ c, F'.append G, s', ?_, hsound.append hsound', hs', fun b hb => ?_⟩
    · rw [Directive.copies_cons, hm', Markup.text_append]
      simp only [hc]
    · have := hweight b hb
      have := hweight' b hb
      rw [Forest.weight_append, List.length_cons, Nat.add_mul]
      omega

end Sound

/-! ## The element of a directive -/

/-- An error that a loop is to blame for: its expression, or what its source is. -/
def Error.IsLoopFault : Error → Prop
  | .loopExpression _ => True
  | .loopSource _ _ _ => True
  | _ => False

namespace Nested

variable {R : Discipline} {pre x post front rest : Markup} {tail : Text} {F : Forest} {kind : DirectiveKind} {d : Directive}

/-- A directive has a span. Without the directive the element is sound and lighter, and sound markup may
take its place. -/
theorem exists_splice (h : Nested R pre x post tail F)
    (hfind : Directive.find? kind (document pre x post tail) = some (front, d, rest)) :
    ∃ (f inside after : Markup) (tag : Tag) (E E' : Forest), front = pre ++ f ∧
      rest = inside ++ (after ++ (post ++ tail.map .char)) ∧
      Markup.cutSpan d.tag rest = some (inside, after ++ (post ++ tail.map .char)) ∧
      d.stripped = tag.print ∧ Sound R (.lexeme tag :: inside) E' ∧
      (∀ b, 0 < b → b * (E'.weight b Tag.load + 1) ≤ E.weight b Tag.load + 1) ∧
      ∀ {c : Markup} {G : Forest}, Sound R c G → ∃ F' : Forest, Nested R pre (f ++ (c ++ after)) post tail F' ∧
        ∀ b, 0 < b → G.weight b Tag.load < E.weight b Tag.load →
          F'.weight b Tag.load < F.weight b Tag.load := by
  obtain ⟨f, r, rfl, rfl, rfl, hd⟩ := h.exists_of_find? hfind
  have hclosing := (Directive.print_tag_of_ofTag? hd).2.1
  obtain ⟨E, inside, after, rfl, hE, hput⟩ := Forest.exists_element h.matched
    (show F.tags = f.tags ++ d.tag :: r.tags by rw [h.tags]; simp) hclosing
  obtain ⟨tag, hstripped, hproper, hkept, hsame, hlt⟩ := R.exists_stripped (h.kept d.tag (by simp)) hd
  have hinside : List.Forall₂ (Forest.Same Tag.load) inside.tags inside.tags :=
    List.forall₂_same.2 fun tag _ => ⟨rfl, rfl, rfl, le_rfl⟩
  obtain ⟨E', hE', htags', hweight⟩ := hE.exists_copy hsame hlt hinside
  have hsealed := h.isSealed
  have hshape : pre ++ (f ++ .lexeme d.tag :: (inside ++ after) ++ post) =
      (pre ++ f) ++ .lexeme d.tag :: (inside ++ (after ++ post)) := by simp
  rw [hshape] at hsealed
  obtain ⟨hfront, -, hsealedInside, hbehind⟩ := hsealed.of_span hd (hE.cutSpan [])
  have hcut := hE.cutSpan (after ++ (post ++ tail.map .char))
  refine ⟨f, inside, after, tag, E, E', rfl, by simp, by rw [List.append_assoc, hcut], hstripped, ?_, hweight,
    fun {c G} hc => ?_⟩
  · refine ⟨⟨hproper, hsealedInside⟩, fun t ht => ?_, hE', htags'⟩
    rw [Markup.tags_tag, List.mem_cons] at ht
    rcases ht with rfl | hmem
    · exact hkept
    · exact h.kept t (by simp [hmem])
  · obtain ⟨F', hF', htags, hlight⟩ := hput G hc.matched
    refine ⟨F', ⟨?_, h.before, h.after, h.tail, fun t ht => ?_, hF', ?_⟩, fun b hb => hlight b Tag.load hb⟩
    · have := hfront.append (hc.isSealed.append hbehind)
      simpa using this
    · simp only [Markup.tags_append, List.mem_append] at ht
      rcases ht with ht | ht | ht
      · exact h.kept t (by simp [ht])
      · exact hc.kept t ht
      · exact h.kept t (by simp [ht])
    · rw [htags, hc.tags]
      simp

/-! ## Expansion -/

/-- A round at a loop is the loop's fault or leaves a lighter document. -/
theorem exists_expandAt (h : Nested R pre x post tail F)
    (hfind : Directive.find? .loop (document pre x post tail) = some (front, d, rest)) {w : Nat} {s : Scope}
    (hs : s.Narrow w) :
    (∃ e s', Directive.expandAt front d rest s = (.error e, s') ∧ e.IsLoopFault) ∨
      ∃ x' F' s', Directive.expandAt front d rest s = (.ok (document pre x' post tail).text, s') ∧
        Nested R pre x' post tail F' ∧ F'.weight (w + 2) Tag.load < F.weight (w + 2) Tag.load ∧ s'.Narrow w := by
  obtain ⟨f, inside, after, tag, E, E', rfl, -, hcut, hstripped, hsound, hweight, hput⟩ :=
    h.exists_splice hfind
  unfold Directive.expandAt
  split
  · exact .inl ⟨_, s, rfl, trivial⟩
  · next expr _ =>
    rw [hcut]
    dsimp only
    split
    · next items hitems =>
      have hwidest : (Value.array items).widest ≤ w := hs.lookup? hitems
      rw [Value.widest, max_le_iff] at hwidest
      obtain ⟨c, G, s', hc, hsound', hs', hG⟩ := hsound.exists_copies expr.item items hs fun v hv =>
        (Value.widest_le_widestItem hv).trans hwidest.2
      obtain ⟨F', hF', hlight⟩ := hput hsound'
      rw [Markup.text_tag, ← hstripped] at hc
      rw [hc]
      refine .inr ⟨f ++ (c ++ after), F', s', by simp [document], hF', hlight _ (by omega) ?_, hs'⟩
      have hcopies := hG (w + 2) (by omega)
      have hcopy := hweight (w + 2) (by omega)
      have hmul : items.length * E'.weight (w + 2) Tag.load ≤ w * E'.weight (w + 2) Tag.load :=
        Nat.mul_le_mul_right _ hwidest.1
      have hexpand : (w + 2) * (E'.weight (w + 2) Tag.load + 1) =
          w * E'.weight (w + 2) Tag.load + 2 * E'.weight (w + 2) Tag.load + w + 2 := by ring
      omega
    · exact .inl ⟨_, s, rfl, trivial⟩

/-- Expansion settles within as many rounds as the document weighs, unless a loop is at fault. -/
theorem exists_expandRounds (h : Nested R pre x post tail F) {w : Nat} {s : Scope} (hs : s.Narrow w)
    {rounds : Nat} (hrounds : F.weight (w + 2) Tag.load < rounds) :
    (∃ e s', Directive.expandRounds rounds (document pre x post tail).text s = (.error e, s') ∧
        e.IsLoopFault) ∨
      ∃ x' F' s', Directive.expandRounds rounds (document pre x post tail).text s =
        (.ok (document pre x' post tail).text, s') ∧ Nested R pre x' post tail F' ∧
          Directive.find? .loop (document pre x' post tail) = none := by
  induction rounds generalizing x F s with
  | zero => omega
  | succ rounds ih =>
    rw [Directive.expandRounds, h.ofText_text]
    split
    · next hnone => exact .inr ⟨x, F, s, rfl, h, hnone⟩
    · next front d rest hfind =>
      rcases h.exists_expandAt hfind hs with ⟨e, s', he, hfault⟩ | ⟨x', F', s', he, h', hlt, hs'⟩
      · rw [he]
        exact .inl ⟨e, s', rfl, hfault⟩
      · rw [he]
        exact ih h' hs' (by omega)

end Nested

/-- The greatest number of items in an array of the scope. -/
def Scope.width (s : Scope) : Nat :=
  (s.bindings.map fun binding => binding.2.widest).foldl max s.data.widest

theorem Scope.narrow_width (s : Scope) : s.Narrow s.width := by
  have hle : ∀ (l : List Nat) (n : Nat), n ≤ l.foldl max n ∧ ∀ k ∈ l, k ≤ l.foldl max n := by
    intro l
    induction l with
    | nil => simp
    | cons k l ih =>
      intro n
      obtain ⟨hn, hl⟩ := ih (max n k)
      rw [List.foldl_cons, List.forall_mem_cons]
      exact ⟨(le_max_left n k).trans hn, (le_max_right n k).trans hn, hl⟩
  obtain ⟨hdata, hbindings⟩ := hle (s.bindings.map fun binding => binding.2.widest) s.data.widest
  exact ⟨hdata, fun binding hb => hbindings _ (List.mem_map.2 ⟨binding, hb, rfl⟩)⟩

theorem Markup.sum_load_le (m : Markup) : (m.tags.map Tag.load).sum ≤ m.text.length := by
  induction m with
  | nil => simp
  | cons piece m ih =>
    cases piece with
    | char c =>
      rw [tags_char, text_char, List.length_cons]
      omega
    | lexeme tag =>
      have hload : tag.load ≤ tag.print.length := List.count_le_length
      rw [tags_tag, text_tag, List.map_cons, List.sum_cons, List.length_append]
      omega

namespace Nested

variable {R : Discipline} {pre x post : Markup} {tail : Text} {F : Forest}

theorem weight_lt_roundBound (h : Nested R pre x post tail F) (s : Scope) :
    F.weight (s.width + 2) Tag.load < Directive.roundBound (document pre x post tail).text s := by
  have hweight := Forest.weight_lt_pow (show 0 < s.width + 2 by omega) Tag.load F
  have hle : (x.tags.map Tag.load).sum ≤ (document pre x post tail).text.length := by
    have := x.sum_load_le
    simp only [document, Markup.text_append, List.length_append]
    omega
  rw [h.tags] at hweight
  have hpow := Nat.pow_le_pow_right (show 0 < s.width + 2 by omega) hle
  show F.weight (s.width + 2) Tag.load < (s.width + 2) ^ (document pre x post tail).text.length
  omega

/-- Expansion leaves such a document without loops, or a loop is at fault. -/
theorem exists_expandIn (h : Nested R pre x post tail F) (s : Scope) :
    (∃ e s', Directive.expandIn (document pre x post tail).text s = (.error e, s') ∧ e.IsLoopFault) ∨
      ∃ x' F' s', Directive.expandIn (document pre x post tail).text s =
        (.ok (document pre x' post tail).text, s') ∧ Nested R pre x' post tail F' ∧
          Directive.find? .loop (document pre x' post tail) = none :=
  h.exists_expandRounds s.narrow_width (h.weight_lt_roundBound s)

end Nested
end HtmlTemplate
