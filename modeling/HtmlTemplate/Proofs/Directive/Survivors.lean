import HtmlTemplate.Directive.Selection
import HtmlTemplate.Proofs.Directive.Rounds

/-!
# What selection leaves

Selection edits a text again and again, each time at the first guard that is left. What it leaves of a
document can be read off the document in one walk (`Directive.survivors`): a tag whose guards hold stays
without them, and any other guarded tag goes with its element (`Nested.exists_select`).
-/

namespace HtmlTemplate

namespace Markup

theorem cutSpan_congr {s t : Tag} (hname : t.name = s.name) (hopens : t.opensScope = s.opensScope)
    (m : Markup) : cutSpan t m = cutSpan s m := by
  rw [cutSpan, cutSpan, hname, hopens]

end Markup

namespace Directive

/-- What is left of markup when `keep` says what becomes of each tag: where it says nothing, the element
of the tag goes. -/
def survivors (keep : Tag → Option Text) (m : Markup) : Text :=
  match m with
  | [] => []
  | .char c :: m => c :: survivors keep m
  | .lexeme tag :: m =>
    match keep tag with
    | some t => t ++ survivors keep m
    | none =>
      match _hs : Markup.cutSpan tag m with
      | some (_, after) => survivors keep after
      | none => []
termination_by m.length
decreasing_by
  · simp
  · simp
  · rw [Markup.eq_append_of_cutSpan _hs]
    simp only [List.length_append, List.length_cons]
    omega

variable {keep : Tag → Option Text}

@[simp] theorem survivors_nil : survivors keep [] = [] := by
  rw [survivors]

@[simp] theorem survivors_char (c : Char) (m : Markup) :
    survivors keep (.char c :: m) = c :: survivors keep m := by
  rw [survivors]

theorem survivors_kept {tag : Tag} {t : Text} (h : keep tag = some t) (m : Markup) :
    survivors keep (.lexeme tag :: m) = t ++ survivors keep m := by
  rw [survivors, h]

theorem survivors_dropped {tag : Tag} (h : keep tag = none) {m inside after : Markup}
    (hs : Markup.cutSpan tag m = some (inside, after)) :
    survivors keep (.lexeme tag :: m) = survivors keep after := by
  rw [survivors, h]
  dsimp only
  split
  · next hs' =>
    rw [hs] at hs'
    rw [(Prod.mk.inj (Option.some.inj hs')).2]
  · next hs' => simp [hs] at hs'

theorem survivors_congr {s t : Tag} (h : keep s = keep t) (hname : t.name = s.name)
    (hopens : t.opensScope = s.opensScope) (m : Markup) :
    survivors keep (.lexeme t :: m) = survivors keep (.lexeme s :: m) := by
  rw [survivors, survivors, h, Markup.cutSpan_congr hname hopens]

theorem survivors_append {m : Markup} (h : ∀ tag ∈ m.tags, keep tag = some tag.print) (n : Markup) :
    survivors keep (m ++ n) = m.text ++ survivors keep n := by
  induction m with
  | nil => rfl
  | cons piece m ih =>
    cases piece with
    | char c => simp [ih (by simpa using h)]
    | lexeme tag =>
      rw [Markup.tags_tag, List.forall_mem_cons] at h
      rw [List.cons_append, survivors_kept h.1, ih h.2, Markup.text_tag, List.append_assoc]

theorem survivors_eq_text {m : Markup} (h : ∀ tag ∈ m.tags, keep tag = some tag.print) :
    survivors keep m = m.text := by
  simpa using survivors_append h []

/-- What becomes of a tag when its guards are taken one after another: nothing if one fails. -/
structure Keeps (R : Discipline) (s : Scope) (keep : Tag → Option Text) : Prop where
  plain : ∀ {tag : Tag}, ofTag? .guard tag = none → keep tag = some tag.print
  held : ∀ {tag tag' : Tag} {d : Directive}, R.tag tag → ofTag? .guard tag = some d →
    (Guard.parse d.value).holds s = true → Tag.read d.stripped = some (tag', []) → keep tag = keep tag'
  failed : ∀ {tag : Tag} {d : Directive}, R.tag tag → ofTag? .guard tag = some d →
    (Guard.parse d.value).holds s = false → keep tag = none

end Directive

namespace Nested

open Directive (survivors survivors_append Keeps)

variable {R : Discipline} {pre x post front rest : Markup} {tail : Text} {F : Forest} {d : Directive}

theorem survivors_front {keep : Tag → Option Text} {s : Scope} (hkeep : Keeps R s keep)
    (hfind : Directive.find? .guard (document pre x post tail) = some (front, d, rest)) (m : Markup) :
    survivors keep (front ++ m) = front.text ++ survivors keep m :=
  survivors_append (fun tag htag => hkeep.plain (Markup.eq_none_of_cutAtTag hfind tag htag)) m

/-- A guard that holds goes, and its tag stays with all that stands behind it. -/
theorem exists_held (h : Nested R pre x post tail F)
    (hfind : Directive.find? .guard (document pre x post tail) = some (front, d, rest)) :
    ∃ x' F', Nested R pre x' post tail F' ∧
      front.text ++ d.stripped ++ rest.text = (document pre x' post tail).text ∧
      ∀ {s keep}, Keeps R s keep → (Guard.parse d.value).holds s = true →
        survivors keep (document pre x' post tail) = survivors keep (document pre x post tail) := by
  have hd := Directive.ofTag?_of_find? hfind
  have htag := h.tag_of_find? hfind
  obtain ⟨f, inside, after, tag, E, E', rfl, hrest, -, hstripped, hsound, -, hput⟩ := h.exists_splice hfind
  obtain ⟨F', hF', -⟩ := hput hsound
  have hdocument : document pre (f ++ (.lexeme tag :: inside ++ after)) post tail =
      (pre ++ f) ++ .lexeme tag :: rest := by
    simp [document, hrest]
  refine ⟨f ++ (.lexeme tag :: inside ++ after), F', hF', ?_, fun hkeep hholds => ?_⟩
  · rw [hdocument, hstripped]
    simp
  · have hread := hsound.isSealed.1.read_print []
    rw [List.append_nil, ← hstripped] at hread
    obtain ⟨tag', hread', -, hname, hopens, -⟩ := R.strip htag hd
    obtain rfl := (Prod.mk.inj (Option.some.inj (hread'.symm.trans hread))).1
    rw [hdocument, Directive.eq_append_of_find? hfind, survivors_front hkeep hfind, survivors_front hkeep hfind,
      Directive.survivors_congr (hkeep.held htag hd hholds hread) hname hopens]

theorem exists_failed (h : Nested R pre x post tail F)
    (hfind : Directive.find? .guard (document pre x post tail) = some (front, d, rest)) :
    ∃ inside after x' F', Markup.cutSpan d.tag rest = some (inside, after) ∧ Nested R pre x' post tail F' ∧
      front.text ++ after.text = (document pre x' post tail).text ∧
      ∀ {s keep}, Keeps R s keep → (Guard.parse d.value).holds s = false →
        survivors keep (document pre x' post tail) = survivors keep (document pre x post tail) := by
  have hd := Directive.ofTag?_of_find? hfind
  have htag := h.tag_of_find? hfind
  obtain ⟨f, inside, after, tag, E, E', rfl, -, hcut, -, -, -, hput⟩ := h.exists_splice hfind
  obtain ⟨F', hF', -⟩ := hput .nil
  have hdocument : document pre (f ++ ([] ++ after)) post tail =
      (pre ++ f) ++ (after ++ (post ++ tail.map Piece.char)) := by
    simp [document]
  refine ⟨inside, _, f ++ ([] ++ after), F', hcut, hF', ?_, fun hkeep hholds => ?_⟩
  · rw [hdocument, Markup.text_append (pre ++ f)]
  · rw [hdocument, Directive.eq_append_of_find? hfind, survivors_front hkeep hfind, survivors_front hkeep hfind,
      Directive.survivors_dropped (hkeep.failed htag hd hholds) hcut]

/-- Selection succeeds, and leaves what survives of the document, which is again nested. -/
theorem exists_select (h : Nested R pre x post tail F) (s : Scope) :
    ∃ x' F', Directive.select s (document pre x post tail).text = .ok (document pre x' post tail).text ∧
      Nested R pre x' post tail F' ∧ ∀ keep, Keeps R s keep →
        (document pre x' post tail).text = survivors keep (document pre x post tail) := by
  induction hn : (document pre x post tail).text.length using Nat.strong_induction_on generalizing x F with
  | _ n ih =>
    rw [Directive.select]
    split
    · next hnone =>
      rw [h.ofText_text] at hnone
      refine ⟨x, F, rfl, h, fun keep hkeep => ?_⟩
      rw [Directive.survivors_eq_text fun tag htag =>
        hkeep.plain (Markup.eq_none_of_cutAtTag_eq_none hnone tag htag)]
    · next front d rest hfind =>
      have hfind' := hfind
      rw [h.ofText_text] at hfind'
      obtain ⟨x₁, F₁, h₁, ht₁, hheld⟩ := h.exists_held hfind'
      obtain ⟨inside, after, x₂, F₂, hcut, h₂, ht₂, hfailed⟩ := h.exists_failed hfind'
      obtain ⟨hlt₁, hlt₂⟩ := Directive.length_lt_of_find? hfind hcut
      rw [ht₁] at hlt₁
      rw [ht₂] at hlt₂
      split
      · next hnone => simp [hcut] at hnone
      · next after' hsome =>
        obtain ⟨rfl, rfl⟩ := Prod.mk.inj (Option.some.inj (hcut.symm.trans hsome))
        split
        · next hholds =>
          rw [ht₁]
          obtain ⟨x', F', hselect, hnested, hsurvivors⟩ := ih _ (hn ▸ hlt₁) h₁ rfl
          exact ⟨x', F', hselect, hnested, fun keep hkeep => (hsurvivors keep hkeep).trans (hheld hkeep hholds)⟩
        · next hholds =>
          rw [ht₂]
          obtain ⟨x', F', hselect, hnested, hsurvivors⟩ := ih _ (hn ▸ hlt₂) h₂ rfl
          exact ⟨x', F', hselect, hnested, fun keep hkeep =>
            (hsurvivors keep hkeep).trans (hfailed hkeep (by simpa using hholds))⟩

end Nested
end HtmlTemplate
