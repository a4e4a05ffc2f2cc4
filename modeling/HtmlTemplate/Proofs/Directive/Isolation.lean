import HtmlTemplate.Proofs.Directive.Exposure

/-!
# Bindings that no text refers to

Where no loop item is referred to, selection and interpolation find no binding: a path that begins with a bound
name would make the text spell the name, and the text of the template does not, nor does it fray at it
(`Directive.select_interpolate_eq`). Where it frays, a name can come together from two parts of the template
and lead to a binding (`Directive.select_interpolate_frayed`).
-/

namespace HtmlTemplate

open Text (Exposed Frays Spells)

/-! ## Scopes in which the same names are bound -/

namespace Scope

/-- Scopes over the same data in which the same names are bound, to any values. -/
structure SameNames (s s' : Scope) : Prop where
  data : s'.data = s.data
  names : s'.bindings.map Prod.fst = s.bindings.map Prod.fst

/-- A scope with other values bound to its names. -/
def rebind (s : Scope) (value : Text → Value) : Scope :=
  { s with bindings := s.bindings.map fun binding => (binding.1, value binding.1) }

theorem sameNames_rebind (s : Scope) (value : Text → Value) : s.SameNames (s.rebind value) := by
  refine ⟨rfl, ?_⟩
  rw [rebind, List.map_map]
  rfl

theorem SameNames.lookup? {s s' : Scope} (h : s.SameNames s') {path : Text}
    (hpath : (DataPath.splitHead path).1 ∉ s.bindings.map Prod.fst) : s'.lookup? path = s.lookup? path := by
  by_cases hne : path = []
  · simp [Scope.lookup?, hne]
  · rw [lookup?_of_lookup_eq_none hne (lookup_eq_none_of_not_mem hpath),
      lookup?_of_lookup_eq_none hne (lookup_eq_none_of_not_mem (h.names ▸ hpath)), h.data]

end Scope

/-! ## First segments that a text spells -/

theorem Text.spells_head {c d : Char} {x y path : Text} (hc : isWord c = false) (hd : isWord d = false)
    (hx : ∀ e ∈ x, isWord e = false) (hy : ∀ e ∈ y, isWord e = false) :
    Spells (c :: (x ++ (path ++ (y ++ [d])))) (DataPath.splitHead path).1 := by
  have hpath : path = (DataPath.splitHead path).1 ++ path.dropWhile (· != '.') :=
    List.takeWhile_append_dropWhile.symm
  obtain ⟨x', c', hx', hc'⟩ : ∃ x' c', c :: x = x' ++ [c'] ∧ isWord c' = false := by
    rcases List.eq_nil_or_concat x with rfl | ⟨x', c', rfl⟩
    · exact ⟨[], c, rfl, hc⟩
    · exact ⟨c :: x', c', by simp, hx c' (by simp)⟩
  obtain ⟨d', w, hw, hd'⟩ :
      ∃ d' w, path.dropWhile (· != '.') ++ (y ++ [d]) = d' :: w ∧ isWord d' = false := by
    cases hrest : path.dropWhile (· != '.') with
    | nil =>
      cases y with
      | nil => exact ⟨d, [], rfl, hd⟩
      | cons e y => exact ⟨e, _, rfl, hy e (by simp)⟩
    | cons e rest =>
      have he := Text.eq_false_of_head?_dropWhile (p := (· != '.')) (by rw [hrest]; rfl)
      refine ⟨e, _, rfl, ?_⟩
      rw [show e = '.' by simpa using he]
      decide
  refine ⟨x', c', d', w, ?_, hc', hd'⟩
  rw [← hw, ← List.cons_append, hx', List.append_assoc, List.singleton_append,
    ← List.append_assoc _ _ (y ++ [d]), ← hpath]

theorem Text.exists_trim_of_words (t : Text) :
    ∃ x y : Text, (∀ c ∈ x, isWord c = false) ∧ (∀ c ∈ y, isWord c = false) ∧ t = x ++ (t.trim ++ y) := by
  obtain ⟨b, b', hb, hb', ht⟩ := t.exists_trim
  exact ⟨b, b', fun c hc => not_isWord_of_isBlank (hb c hc), fun c hc => not_isWord_of_isBlank (hb' c hc), ht⟩

theorem Guard.exists_parse (expression : Text) :
    ∃ x y : Text, (∀ c ∈ x, Text.isWord c = false) ∧ (∀ c ∈ y, Text.isWord c = false) ∧
      expression = x ++ ((parse expression).path ++ y) := by
  obtain ⟨x, y, hx, hy, he⟩ := expression.exists_trim_of_words
  unfold parse
  split
  · next path htrim =>
    obtain ⟨x', y', hx', hy', hpath⟩ := Text.exists_trim_of_words path
    have hmark : ∀ c ∈ '!' :: x', Text.isWord c = false := List.forall_mem_cons.2 ⟨by decide, hx'⟩
    refine ⟨x ++ '!' :: x', y' ++ y, List.forall_mem_append.2 ⟨hx, hmark⟩,
      List.forall_mem_append.2 ⟨hy', hy⟩, ?_⟩
    rw [he, htrim]
    conv_lhs => rw [hpath]
    simp
  · exact ⟨x, y, hx, hy, he⟩

theorem Placeholder.spells_head {t rest : Text} {p : Placeholder} (h : read t = some (p, rest)) :
    Spells p.print (DataPath.splitHead p.path).1 := by
  simp only [read, Option.bind_eq_bind, Option.bind_eq_some_iff] at h
  obtain ⟨t₁, h₁, ⟨path, t₂⟩, h₂, t₃, h₃, he⟩ := h
  obtain ⟨rfl, rfl⟩ := Prod.mk.inj (Option.some.inj he)
  have hblank : ∀ {t : Text}, ∀ c ∈ t.takeWhile Text.isBlank, Text.isWord c = false := fun c hc =>
    Text.not_isWord_of_isBlank (List.mem_takeWhile_imp hc)
  have hspells : Spells
      ('\x7b' :: (t₁.takeWhile Text.isBlank ++ (path ++ (t₂.takeWhile Text.isBlank ++ ['\x7d']))))
      (DataPath.splitHead path).1 := Text.spells_head (by decide) (by decide) hblank hblank
  have hprint := (hspells.append_left ['\x7b']).append_right ['\x7d']
  simpa [print, openBraces, closeBraces] using hprint

namespace Directive

theorem spells_guard {d : Directive} (hd : ofTag? .guard d.tag = some d) :
    Spells d.tag.print (DataPath.splitHead (Guard.parse d.value).path).1 := by
  have hquote : Text.isWord d.attr.quoted.quote = false :=
    Text.not_isWord_of_isQuote (valid_of_ofTag? hd).quote
  obtain ⟨x, y, hx, hy, hvalue⟩ := Guard.exists_parse d.value
  generalize (Guard.parse d.value).path = path at hvalue ⊢
  have hspells : Spells (d.attr.quoted.quote :: (x ++ (path ++ (y ++ [d.attr.quoted.quote])))) _ :=
    Text.spells_head hquote hquote hx hy
  have hprint : d.tag.print =
      (d.front ++ d.attr.blank :: (DirectiveKind.guard.attributeName ++ d.attr.equals)) ++
        (d.attr.quoted.quote :: (x ++ (path ++ (y ++ [d.attr.quoted.quote]))) ++ d.back) := by
    rw [(print_tag_of_ofTag? hd).2.2, Attribute.print_eq, show d.attr.quoted.value = _ from hvalue]
    simp
  rw [hprint]
  exact (hspells.append_right _).append_left _

end Directive

/-! ## Texts that bindings are hidden from -/

/-- A text neither spells a bound name nor frays at one. -/
def Scope.HiddenFrom (s : Scope) (t : Text) : Prop :=
  ∀ name ∈ s.bindings.map Prod.fst, name ≠ [] ∧ ¬ Exposed t name

namespace Scope.HiddenFrom

variable {s : Scope} {t u : Text}

theorem not_spells (h : s.HiddenFrom t) {name : Text} (hname : name ∈ s.bindings.map Prod.fst) : ¬ Spells t name :=
  fun hspells => (h name hname).2 ((Text.exposed_iff (h name hname).1).2 (.inl hspells))

theorem mono (h : s.HiddenFrom t) (hexposed : ∀ {name}, Exposed u name → Exposed t name) : s.HiddenFrom u :=
  fun name hname => ⟨(h name hname).1, fun hu => (h name hname).2 (hexposed hu)⟩

end Scope.HiddenFrom

namespace Directive

variable {s s' : Scope} {t : Text}

theorem holds_eq_of_sameNames (h : s.SameNames s') (ht : s.HiddenFrom t) {front rest : Markup} {d : Directive}
    (hfind : find? .guard (Markup.ofText t) = some (front, d, rest)) :
    (Guard.parse d.value).holds s' = (Guard.parse d.value).holds s := by
  rw [Guard.holds, Guard.holds, h.lookup?]
  intro hmem
  refine ht.not_spells hmem ?_
  rw [text_of_find? hfind]
  exact ((spells_guard (ofTag?_of_find? hfind)).append_right _).append_left _

/-- What selection leaves does not depend on values that are hidden from the text. -/
theorem select_eq_of_sameNames (h : s.SameNames s') (ht : s.HiddenFrom t) : select s' t = select s t := by
  fun_induction select s t with
  | case1 t hfind =>
    rw [select]
    split
    · rfl
    · next hsome => simp [hfind] at hsome
  | case2 t front d rest hfind hspan => rw [select_of_find? s' hfind, hspan]
  | case3 t front d rest hfind inside after hspan hholds ih =>
    rw [select_of_find? s' hfind, hspan]
    simp only [holds_eq_of_sameNames h ht hfind, hholds, if_true]
    refine ih (ht.mono fun hexposed => ?_)
    rw [text_of_find? hfind]
    exact exposed_of_stripped (ofTag?_of_find? hfind) (by simpa using hexposed)
  | case4 t front d rest hfind inside after hspan hholds ih =>
    rw [select_of_find? s' hfind, hspan]
    simp only [holds_eq_of_sameNames h ht hfind, hholds]
    refine ih (ht.mono fun hexposed => ?_)
    rw [text_of_find? hfind]
    exact exposed_of_dropped hspan hexposed

theorem interpolate_eq_of_sameNames (h : s.SameNames s') (ht : s.HiddenFrom t) :
    Placeholder.interpolate s' t = Placeholder.interpolate s t := by
  refine Text.fill_congr fun p hp => ?_
  obtain ⟨u, rest, hread⟩ := Placeholder.pattern.exists_read_of_mem_pieces hp
  rw [Placeholder.value, Placeholder.value, h.lookup?]
  intro hmem
  refine ht.not_spells hmem ?_
  rw [← Placeholder.pattern.print_pieces t]
  exact Spells.flatMap hp (f := Piece.print Placeholder.print) (Placeholder.spells_head hread)

/-! ## Expanded texts -/

theorem not_mem_namesIn_of_rounds {n : Nat} {t : Text} {data : Value} {q : Text × Scope}
    (h : Rounds n (t, (Scope.ofData data).reserve t) q) {name : Text} (hname : name ∈ q.2.bindings.map Prod.fst) :
    (∃ k, name = Scope.nameOf k) ∧ name ∉ Scope.namesIn t := by
  obtain ⟨values, hvalues⟩ := exists_run_of_rounds h
  obtain ⟨binding, hbinding, rfl⟩ := List.mem_map.1 hname
  rw [hvalues, Scope.bindings_run] at hbinding
  have hreturned : binding ∈ ((Scope.ofData data).reserve t).returned (values.map .bind) := hbinding
  obtain ⟨hfree, hsynthetic⟩ := Scope.isTaken_of_mem_returned hreturned
  refine ⟨hsynthetic, fun hmem => ?_⟩
  have hreserved : ((Scope.ofData data).reserve t).reserved.contains binding.1 = true :=
    List.contains_iff_mem.2 hmem
  rw [Scope.isTaken, hreserved, Bool.or_true, Bool.true_or] at hfree
  exact absurd hfree (by decide)

/-- Bindings are hidden from the text that rounds lead to, if nothing refers to them and the first text frays at
no bound name. -/
theorem hiddenFrom_of_rounds {n : Nat} {data : Value} {q : Text × Scope}
    (hrounds : Rounds n (t, (Scope.ofData data).reserve t) q)
    (hunreferenced : ∀ n p, Rounds n (t, (Scope.ofData data).reserve t) p → unreferenced p = true)
    (hfray : ∀ name ∈ q.2.bindings.map Prod.fst, ¬ Frays t name) : q.2.HiddenFrom q.1 := by
  intro name hname
  obtain ⟨⟨k, rfl⟩, hnot⟩ := not_mem_namesIn_of_rounds hrounds hname
  have hne : Scope.nameOf k ≠ [] := (Scope.isPath_nameOf k).ne_nil
  refine ⟨hne, fun hq => ?_⟩
  have ht := exposed_of_rounds hrounds hunreferenced (fun c => Scope.isWord_of_mem_nameOf) hq
  rcases (Text.exposed_iff hne).1 ht with hspells | hfrays
  · exact hnot (Scope.mem_namesIn_of_spells hspells)
  · exact hfray _ hname hfrays

/-- If nothing refers to a loop item in any round, and the text frays at no bound name, what selection and
interpolation make of the expanded text does not depend on the values that are bound. -/
theorem select_interpolate_eq {t u : Text} {data : Value} (hexpand : expand t data = (.ok u, s))
    (hunreferenced : ∀ n p, Rounds n (t, (Scope.ofData data).reserve t) p → unreferenced p = true)
    (hfray : ∀ name ∈ s.bindings.map Prod.fst, ¬ Frays t name) (h : s.SameNames s') :
    (select s' u).map (Placeholder.interpolate s') = (select s u).map (Placeholder.interpolate s) := by
  obtain ⟨n, hrounds⟩ := exists_rounds_of_expandRounds hexpand
  have hhidden : s.HiddenFrom u := hiddenFrom_of_rounds hrounds hunreferenced hfray
  rw [select_eq_of_sameNames h hhidden]
  cases hselect : select s u with
  | error e => rfl
  | ok v => exact congrArg Except.ok (interpolate_eq_of_sameNames h (hhidden.mono (exposed_of_select hselect)))

theorem expand_eq {t u : Text} {data : Value} (h : (expand t data).1 = .ok u) :
    expand t data = (.ok u, (expand t data).2) := Prod.ext h rfl

/-- The template spells a synthetic name, which is not bound, and no half of another. -/
theorem select_interpolate_eq_spelled :
    let t := "<i *for='x of xs' *if='on'>\x7b\x7b__templ_iter_0\x7d\x7d</i>".toList
    let data := Value.object [("xs".toList, .array [.string ['1'], .null]), ("on".toList, .bool true)]
    ∃ u s, expand t data = (.ok u, s) ∧
      s.bindings.map Prod.fst = ["__templ_iter_1".toList, "__templ_iter_2".toList] ∧
      ∀ s', s.SameNames s' → (select s' u).map (Placeholder.interpolate s') = .ok "<i></i><i></i>".toList := by
  intro t data
  have hu : (expand t data).1 =
      .ok ("<i *if='on'>\x7b\x7b__templ_iter_0\x7d\x7d</i>".toList ++
        "<i *if='on'>\x7b\x7b__templ_iter_0\x7d\x7d</i>".toList) := by
    decide +kernel
  have hnames : (expand t data).2.bindings.map Prod.fst =
      ["__templ_iter_1".toList, "__templ_iter_2".toList] := by
    decide +kernel
  have hunreferenced : throughout unreferenced 2 (t, (Scope.ofData data).reserve t) = true := by decide +kernel
  have hfray : ∀ name ∈ (expand t data).2.bindings.map Prod.fst, ¬ Frays t name := by
    rw [hnames]
    decide +kernel
  refine ⟨_, _, expand_eq hu, hnames, fun s' hsame => ?_⟩
  rw [select_interpolate_eq (expand_eq hu) (fun n p => of_throughout hunreferenced) hfray hsame]
  decide +kernel

/-- The halves of a bound name come together when the element between them goes, which is repeated for no item.
What is rendered is the value that is bound to the name, to which nothing refers. -/
theorem select_interpolate_frayed :
    let t := "<div>\x7b\x7b__templ_it<b *for='x of xs'></b>er_0\x7d\x7d<i *for='y of ys'></i></div>".toList
    let data := Value.object [("xs".toList, .array []), ("ys".toList, .array [.string "secret".toList])]
    (∀ n p, Rounds n (t, (Scope.ofData data).reserve t) p → unreferenced p = true) ∧
      ∃ u s s', expand t data = (.ok u, s) ∧ s.SameNames s' ∧
        (select s u).map (Placeholder.interpolate s) = .ok "<div>secret<i></i></div>".toList ∧
        (select s' u).map (Placeholder.interpolate s') = .ok "<div><i></i></div>".toList := by
  intro t data
  have hu : (expand t data).1 = .ok "<div>\x7b\x7b__templ_iter_0\x7d\x7d<i></i></div>".toList := by decide +kernel
  have hunreferenced : throughout unreferenced 3 (t, (Scope.ofData data).reserve t) = true := by decide +kernel
  refine ⟨fun n p => of_throughout hunreferenced, _, _, (expand t data).2.rebind fun _ => .null, expand_eq hu,
    Scope.sameNames_rebind _ _, ?_, ?_⟩
  · decide +kernel
  · decide +kernel

end Directive
end HtmlTemplate
