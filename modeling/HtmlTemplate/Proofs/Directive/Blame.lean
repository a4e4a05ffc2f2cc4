import HtmlTemplate.Proofs.Directive.Carried
import HtmlTemplate.Proofs.Directive.Fragment

/-!
# Loops that errors name

Expansion fails at a loop of the expanded text, which rounds before may have retargeted, and names it as it stands there.
Rounds copy, strip and retarget tags, so a loop that comes up is one that the template writes, with references to items
turned into synthetic names (`Directive.Derived`), and the error names the loop as the template writes it just where no
synthetic name stands in what it says (`Directive.expandRounds_names`).
-/

namespace HtmlTemplate

theorem Scope.stem_infix_of_words_eq {s t : Text} (h : s.words = t.words) (hs : stem <:+: s) : stem <:+: t := by
  have hsolid : ∀ c ∈ stem, Text.isBlank c = false := by
    have hall : stem.all (fun c => !Text.isBlank c) = true := by decide
    simpa using List.all_eq_true.1 hall
  rw [Text.infix_iff_exists_mem_words (by decide) hsolid] at hs ⊢
  rwa [← h]

theorem LoopExpr.parse?_of_words_eq {s t : Text} (h : s.words = t.words) : parse? s = parse? t := by
  rw [parse?, parse?, h]

/-- The loop expression that an error names. -/
def Error.expression? : Error → Option Text
  | .loopExpression expression => some expression
  | .loopSource item source _ => some (LoopExpr.text ⟨item, source⟩)
  | .unterminated .loop expression _ => some expression
  | _ => none

/-- Whether an error names a loop with this value, up to blanks. -/
def Error.Names (e : Error) (v : Text) : Prop := ∃ x, e.expression? = some x ∧ x.words = v.words

theorem Text.words_trim (t : Text) : t.trim.words = t.words := by
  obtain ⟨b, b', hb, hb', ht⟩ := exists_trim t
  have hend : words (t.trim ++ b') = words t.trim := by
    cases b' with
    | nil => rw [List.append_nil]
    | cons c b' =>
      rw [List.forall_mem_cons] at hb'
      have hrest := words_blanks_append hb'.2 []
      rw [List.append_nil] at hrest
      rw [words_append_cons hb'.1, hrest]
      simp [words]
  conv_rhs => rw [ht, words_blanks_append hb, hend]

namespace Directive

open Reference (Pass Recast retargetAll retargetSources shadowing? retargetMarkup)
open Markup (Sealed cutSpan)

/-- Whether a value is that of a loop of a text, with references to items that the text declares retargeted. -/
def Derived (t w : Text) : Prop := ∃ v, Writes t v ∧ Relation.ReflTransGen (Recast (Declares t)) v w

variable {t v w : Text}

theorem Writes.derived (h : Writes t v) : Derived t v := ⟨v, h, .refl⟩

theorem Derived.recast (h : Derived t v) (hstep : Recast (Declares t) v w) : Derived t w := by
  obtain ⟨u, hu, hsteps⟩ := h
  exact ⟨u, hu, hsteps.tail hstep⟩

theorem isIdentifier_of_declares {item : Text} (h : Declares t item) : LoopExpr.isIdentifier item = true := by
  obtain ⟨v, e, -, he, rfl⟩ := h
  exact (LoopExpr.parse?_eq_some_iff.1 he).2.1

theorem Derived.declares (h : Derived t v) {e : LoopExpr} (he : LoopExpr.parse? v = some e) : Declares t e.item := by
  obtain ⟨u, hu, hsteps⟩ := h
  obtain ⟨e', he', hitem⟩ := Reference.exists_of_parse?_of_recasts (fun _ => isIdentifier_of_declares) hsteps he
  exact ⟨u, e', hu, he', hitem⟩

/-- Markup with well-formed directives, the loops of which are loops of `t`, retargeted or not. -/
structure Traced (t : Text) (m : Markup) : Prop where
  isSealed : Sealed (fun _ => True) Tag.Bare m
  wellFormed : ∀ tag ∈ m.tags, tag.WellFormed
  carried : ∀ tag ∈ m.tags, ∀ v, tag.Carries v → Derived t v

namespace Traced

variable {m n : Markup}

theorem nil : Traced t [] := ⟨trivial, by simp, by simp⟩

theorem append (hm : Traced t m) (hn : Traced t n) : Traced t (m ++ n) where
  isSealed := hm.isSealed.append hn.isSealed
  wellFormed tag htag := by
    rw [Markup.tags_append, List.mem_append] at htag
    exact htag.elim (hm.wellFormed tag) (hn.wellFormed tag)
  carried tag htag := by
    rw [Markup.tags_append, List.mem_append] at htag
    exact htag.elim (hm.carried tag) (hn.carried tag)

theorem part {m' : Markup} (h : Traced t m) (hsealed : Sealed (fun _ => True) Tag.Bare m')
    (hsub : ∀ tag ∈ m'.tags, tag ∈ m.tags) : Traced t m' :=
  ⟨hsealed, fun tag htag => h.wellFormed tag (hsub tag htag), fun tag htag => h.carried tag (hsub tag htag)⟩

theorem element {kind : DirectiveKind} {front inside after rest rest' : Markup} {d : Directive}
    (h : Traced t (front ++ .lexeme d.tag :: (inside ++ after))) (hd : ofTag? kind d.tag = some d)
    (hspan : cutSpan d.tag rest = some (inside, rest')) :
    Traced t front ∧ Traced t [.lexeme d.tag] ∧ Traced t inside ∧ Traced t after := by
  obtain ⟨hfront, hproper, hinside, hafter⟩ := h.isSealed.of_span hd hspan
  refine ⟨h.part hfront fun tag htag => ?_, h.part ⟨hproper, trivial⟩ fun tag htag => ?_,
    h.part hinside fun tag htag => ?_, h.part hafter fun tag htag => ?_⟩
  all_goals simp only [Markup.tags_append, Markup.tags_tag, List.mem_append, List.mem_cons] at htag ⊢
  all_goals tauto

/-- The loop of a tag is derived from one of the text. -/
theorem derived_of_ofTag? {d : Directive} (h : Traced t m) (htag : d.tag ∈ m.tags) (hd : ofTag? .loop d.tag = some d) :
    Derived t d.value := h.carried d.tag htag _ (carries_of_ofTag? hd)

theorem exists_stripped {kind : DirectiveKind} {d : Directive} (h : Traced t [.lexeme d.tag])
    (hd : ofTag? kind d.tag = some d) : ∃ tag : Tag, d.stripped = tag.print ∧ Traced t [.lexeme tag] := by
  have hwell : d.tag.WellFormed := h.wellFormed d.tag (by simp)
  obtain ⟨tag, hstripped, hproper, -⟩ := hwell.proper_stripped h.isSealed.1 hd
  refine ⟨tag, hstripped, ⟨hproper, trivial⟩, fun tag' htag' => ?_, fun tag' htag' v hv => ?_⟩
  · obtain rfl : tag' = tag := by simpa using htag'
    exact hwell.stripped hd hstripped
  · obtain rfl : tag' = tag := by simpa using htag'
    exact h.carried d.tag (by simp) v (hwell.carries_of_stripped hd hstripped hv)

theorem exists_pass {g h : Text → Text} (hpass : Pass g h) (hderived : ∀ v, Derived t v → Derived t (h v))
    (hm : Traced t m) : ∃ m' : Markup, m'.text = g m.text ∧ Traced t m' := by
  have hproper : ∀ tag ∈ m.tags, tag.Proper := fun tag htag => hm.isSealed.proper htag
  have halike : ∀ tag : Tag, tag.Alike (tag.mapBody g) := fun tag => ⟨rfl, rfl, hpass.alike tag.body⟩
  refine ⟨Markup.pass g [] m, Markup.text_pass hpass.isLocal hproper [], ?_, fun tag htag => ?_, fun tag htag v hv => ?_⟩
  · exact Markup.sealed_pass hpass.isLocal hm.isSealed
      (fun tag htag => ⟨(halike tag).proper (hproper tag htag), Bare.alike (halike tag)⟩) (by simp)
  · rw [Markup.tags_pass, List.mem_map] at htag
    obtain ⟨tag, htag, rfl⟩ := htag
    exact (hm.wellFormed tag htag).alike (halike tag)
  · rw [Markup.tags_pass, List.mem_map] at htag
    obtain ⟨tag, htag, rfl⟩ := htag
    obtain ⟨u, hu, rfl⟩ := hv.of_mapBody hpass (hproper tag htag) (hm.wellFormed tag htag)
    exact hderived u (hm.carried tag htag u hu)

variable {item : Text} {k : Nat}

theorem exists_retargetSources (hitem : Declares t item) (hm : Traced t m) :
    ∃ m' : Markup, m'.text = retargetSources item (Scope.nameOf k) m.text ∧ Traced t m' :=
  hm.exists_pass (Reference.pass_sources (Scope.isPath_nameOf k) item) fun v hv => hv.recast (.source k v hitem)

theorem exists_retargetAll (hitem : Declares t item) (hm : Traced t m) :
    ∃ m' : Markup, m'.text = retargetAll item (Scope.nameOf k) m.text ∧ Traced t m' := by
  have hbinding := Scope.isPath_nameOf k
  obtain ⟨m₁, htext₁, hm₁⟩ := hm.exists_pass (Reference.pass_placeholders hbinding item)
    fun v hv => hv.recast (.placeholders k v hitem)
  obtain ⟨m₂, htext₂, hm₂⟩ := hm₁.exists_pass (Reference.pass_guards hbinding item) fun _ => id
  obtain ⟨m₃, htext₃, hm₃⟩ := hm₂.exists_retargetSources (k := k) hitem
  exact ⟨m₃, by rw [htext₃, htext₂, htext₁]; rfl, hm₃⟩

/-! ## Rounds -/

theorem exists_retargetMarkup (hitem : Declares t item) (h : Traced t m) :
    (∃ m' : Markup, retargetMarkup item (Scope.nameOf k) m = .ok m'.text ∧ Traced t m') ∨
      ∃ e v, retargetMarkup item (Scope.nameOf k) m = .error e ∧ Derived t v ∧ e.Names v := by
  fun_induction retargetMarkup item (Scope.nameOf k) m with
  | case1 m hcut =>
    obtain ⟨m', htext, hm'⟩ := h.exists_retargetAll (k := k) hitem
    exact .inl ⟨m', by rw [htext], hm'⟩
  | case2 m front d rest hcut hspan =>
    obtain ⟨rfl, hshadow⟩ := Reference.eq_append_of_cutAtTag hcut
    have hd := Reference.ofTag?_of_shadowing? hshadow
    exact .inr ⟨_, d.value, rfl, h.derived_of_ofTag? (by simp) hd, d.value.trim, rfl, Text.words_trim d.value⟩
  | case3 m front d rest hcut inside after hspan e hrest ih =>
    obtain ⟨rfl, hshadow⟩ := Reference.eq_append_of_cutAtTag hcut
    obtain rfl := Markup.eq_append_of_cutSpan hspan
    obtain ⟨-, -, -, hafter⟩ := h.element (Reference.ofTag?_of_shadowing? hshadow) hspan
    rcases ih hafter with ⟨m', hm', -⟩ | ⟨e', v, he, hv, hnames⟩
    · simp [hrest] at hm'
    · obtain rfl := Except.error.inj (hrest.symm.trans he)
      exact .inr ⟨e, v, rfl, hv, hnames⟩
  | case4 m front d rest hcut inside after hspan u hrest ih =>
    obtain ⟨rfl, hshadow⟩ := Reference.eq_append_of_cutAtTag hcut
    obtain rfl := Markup.eq_append_of_cutSpan hspan
    obtain ⟨hfront, htag, hinside, hafter⟩ := h.element (Reference.ofTag?_of_shadowing? hshadow) hspan
    rcases ih hafter with ⟨m', hm', htraced⟩ | ⟨e', v, he, -⟩
    · obtain ⟨f, hftext, hf⟩ := hfront.exists_retargetAll (k := k) hitem
      obtain ⟨o, hotext, ho⟩ := htag.exists_retargetSources (k := k) hitem
      obtain rfl := Except.ok.inj (hrest.symm.trans hm')
      refine .inl ⟨f ++ (o ++ (inside ++ m')), ?_, hf.append (ho.append (hinside.append htraced))⟩
      rw [Markup.text_append, Markup.text_append, Markup.text_append, hftext, hotext, Markup.text_tag]
      simp
    · simp [hrest] at he

/-- So do the copies for the items of an array. -/
theorem exists_copies (hitem : Declares t item) (h : Traced t m) (values : List Value) (s : Scope) :
    (∃ (c : Markup) (s' : Scope), copies item m.text values s = (.ok c.text, s') ∧ Traced t c) ∨
      ∃ e s' v, copies item m.text values s = (.error e, s') ∧ Derived t v ∧ e.Names v := by
  induction values generalizing s with
  | nil => exact .inl ⟨[], s, rfl, .nil⟩
  | cons value values ih =>
    rw [copies_cons, Reference.retarget, h.isSealed.ofText_text]
    rcases h.exists_retargetMarkup (k := s.free) hitem with ⟨m', hm', htraced⟩ | ⟨e, v, he, hv, hnames⟩
    · rw [show (s.bind value).1 = Scope.nameOf s.free from rfl, hm']
      rcases ih (s.bind value).2 with ⟨c, s', hc, hrest⟩ | ⟨e, s', v, he, hv, hnames⟩
      · exact .inl ⟨m' ++ c, s', by simp [hc], htraced.append hrest⟩
      · exact .inr ⟨e, s', v, by simp [he], hv, hnames⟩
    · rw [show (s.bind value).1 = Scope.nameOf s.free from rfl, he]
      exact .inr ⟨e, _, v, rfl, hv, hnames⟩

/-- So does a round at a loop. -/
theorem exists_expandAt {x front rest : Markup} {tail : Text} {d : Directive} (h : Traced t x)
    (hfind : find? .loop (x ++ tail.map .char) = some (front, d, rest)) (s : Scope) :
    (∃ (x' : Markup) (s' : Scope), expandAt front d rest s = (.ok (x'.text ++ tail), s') ∧ Traced t x') ∨
      ∃ e s' v, expandAt front d rest s = (.error e, s') ∧ Derived t v ∧ e.Names v := by
  have hd := ofTag?_of_find? hfind
  obtain ⟨r, rfl, rfl⟩ := Markup.exists_of_append_map_char (eq_append_of_find? hfind)
  have hderived := h.derived_of_ofTag? (by simp) hd
  unfold expandAt
  split
  · exact .inr ⟨_, s, d.value, rfl, hderived, d.value, rfl, rfl⟩
  · next expr hexpr =>
    have hnames := LoopExpr.words_text hexpr
    split
    · exact .inr ⟨_, s, d.value, rfl, hderived, expr.text, rfl, hnames⟩
    · next inside after hspan =>
      obtain ⟨behind, rfl, rfl⟩ := Reference.exists_of_cutSpan_append hspan
      obtain ⟨hfront, htag, hinside, hbehind⟩ := h.element hd hspan
      obtain ⟨tag, hstripped, htag'⟩ := htag.exists_stripped hd
      split
      · next items _ =>
        have hfragment : d.stripped ++ inside.text = Markup.text ([.lexeme tag] ++ inside) := by
          rw [hstripped, Markup.text_append, Markup.text_tag]
          simp
        rw [hfragment]
        rcases (htag'.append hinside).exists_copies (hderived.declares hexpr) items s with
          ⟨c, s', hc, hcopies⟩ | ⟨e, s', v, he, hv, hv'⟩
        · rw [hc]
          exact .inl ⟨front ++ (c ++ behind), s', by simp, hfront.append (hcopies.append hbehind)⟩
        · rw [he]
          exact .inr ⟨e, s', v, rfl, hv, hv'⟩
      · exact .inr ⟨_, s, d.value, rfl, hderived, expr.text, rfl, hnames⟩

/-- However many rounds expansion takes, the loop at which it fails is derived from one of the text. -/
theorem exists_of_expandRounds {x : Markup} {tail : Text} (htail : '>' ∉ tail) (h : Traced t x) {rounds : Nat} {s : Scope}
    {e : Error} (hfails : (expandRounds rounds (x.text ++ tail) s).1 = .error e) (he : e ≠ .unsettledLoops) :
    ∃ v, Derived t v ∧ e.Names v := by
  induction rounds generalizing x s with
  | zero => exact absurd (Except.error.inj hfails).symm he
  | succ rounds ih =>
    rw [expandRounds, Markup.ofText_append_of_not_mem_end htail, h.isSealed.ofText_text] at hfails
    split at hfails
    · simp at hfails
    · next front d rest hfind =>
      rcases h.exists_expandAt hfind s with ⟨x', s', hround, hx'⟩ | ⟨e', s', v, hround, hv, hnames⟩
      · rw [hround] at hfails
        exact ih hx' hfails
      · rw [hround] at hfails
        exact ⟨v, hv, Except.error.inj hfails ▸ hnames⟩

end Traced

theorem WellFormed.exists_traced (h : WellFormed t) : ∃ x tail, t = Markup.text x ++ tail ∧ '>' ∉ tail ∧ Traced t x := by
  obtain ⟨main, tail, rfl, htail, hmain⟩ := Text.exists_tail t
  have htags : ∀ tag ∈ (Markup.ofText main).tags, tag ∈ (Markup.ofText (main ++ tail)).tags := fun tag htag => by
    rw [Markup.ofText_append_of_not_mem_end htail]
    simp [htag]
  exact ⟨Markup.ofText main, tail, by simp, htail, h.sealed_main htail hmain, fun tag htag => h.tags tag (htags tag htag),
    fun tag htag v hv => Writes.derived ⟨tag, htags tag htag, hv⟩⟩

/-- The loop that an error of expansion names. It is one that the template writes, after passes that turned references to
items of the template into synthetic names. It declares the item that it declares in the template; the error names it as
the template writes it just where no synthetic name stands in what it says, and does so if what the loop says refers to no
item that the template declares. -/
theorem expandRounds_names (ht : WellFormed t) (hfree : ¬ Scope.stem <:+: t) {rounds : Nat} {s : Scope} {e : Error}
    (hfails : (expandRounds rounds t s).1 = .error e) (he : e ≠ .unsettledLoops) :
    ∃ x v w, e.expression? = some x ∧ Writes t v ∧ Relation.ReflTransGen (Recast (Declares t)) v w ∧ x.words = w.words ∧
      (∀ expr, LoopExpr.parse? x = some expr → ∃ expr', LoopExpr.parse? v = some expr' ∧ expr'.item = expr.item) ∧
      (x.words = v.words ↔ ¬ Scope.stem <:+: x) ∧
      ((∀ item, Declares t item → ¬ Reference.ValueRefers item v) → x.words = v.words) := by
  obtain ⟨m, tail, hm, htail, htraced⟩ := ht.exists_traced
  obtain ⟨w, ⟨v, hv, hsteps⟩, x, hx, hwords⟩ := htraced.exists_of_expandRounds htail (by rwa [← hm]) he
  refine ⟨x, v, w, hx, hv, hsteps, hwords, fun expr hexpr => ?_, ⟨fun hsame hmem => ?_, fun hmem => ?_⟩, fun hrefers => ?_⟩
  · rw [LoopExpr.parse?_of_words_eq hwords] at hexpr
    exact Reference.exists_of_parse?_of_recasts (fun _ => isIdentifier_of_declares) hsteps hexpr
  · exact hfree ((Scope.stem_infix_of_words_eq hsame hmem).trans hv.infix)
  · rcases Reference.eq_or_infix_of_recasts hsteps with rfl | ⟨hmem', -⟩
    · exact hwords
    · exact absurd (Scope.stem_infix_of_words_eq hwords.symm hmem') hmem
  · rcases Reference.eq_or_infix_of_recasts hsteps with rfl | ⟨-, item, hitem, href⟩
    · exact hwords
    · exact absurd href (hrefers item hitem)

/-- An inner loop comes up in a copy of the outer one, and its source is not in the data. -/
theorem expandRounds_names_inner :
    let t := "<ul><li *for='g of gs'><p *for='x  of  none.y'></p></li></ul>".toList
    let s := (Scope.ofData (.object [("gs".toList, .array [.bool true])])).reserve t
    ∃ e x v, (expandRounds 2 t s).1 = .error e ∧ e.expression? = some x ∧ Writes t v ∧ x.words = v.words ∧
      x = "x of none.y".toList := by
  intro t s
  have hfails : (expandRounds 2 t s).1 = .error (.loopSource ['x'] "none.y".toList .undefined) := by decide +kernel
  have ht : WellFormed t := .of_not_mem (by decide +kernel) (by decide +kernel)
  obtain ⟨x, v, w, hx, hv, -, -, -, hsame, -⟩ := expandRounds_names ht (by decide +kernel) hfails (by decide)
  obtain rfl := Option.some.inj hx
  exact ⟨_, _, v, hfails, rfl, hv, hsame.2 (by decide +kernel), rfl⟩

/-- An inner loop over a part of the item of an outer one is named with a synthetic name, and as no part of the template. -/
theorem expand_names_synthetic :
    let t := "<div><div *for='g of gs'><p *for='x of g.items'></p></div></div>".toList
    let data : Value := .object [("gs".toList, .array [.bool true])]
    ¬ Scope.stem <:+: t ∧ (expand t data).1 = .error (.loopSource ['x'] "__templ_iter_0.items".toList .undefined) ∧
      ∀ x, (Error.loopSource ['x'] "__templ_iter_0.items".toList .undefined).expression? = some x →
        Scope.stem <:+: x ∧ ∀ v : Text, v <:+: t → x.words ≠ v.words := by
  intro t data
  have hfree : ¬ Scope.stem <:+: t := by decide +kernel
  refine ⟨hfree, by decide +kernel, fun x hx => ?_⟩
  obtain rfl := Option.some.inj hx
  have hstem : Scope.stem <:+: LoopExpr.text ⟨['x'], "__templ_iter_0.items".toList⟩ := by decide +kernel
  exact ⟨hstem, fun v hv hsame => hfree ((Scope.stem_infix_of_words_eq hsame hstem).trans hv)⟩

end Directive
end HtmlTemplate
