import HtmlTemplate.Proofs.Directive.Retarget
import HtmlTemplate.Proofs.Directive.Rounds

/-!
# What looks like a directive

Guards and sources are rewritten wherever their characters stand, whether a tag carries them or not. So a fragment
without placeholders and loops stays as it is just where nothing in it reads as a reference to the item
(`Reference.retarget_eq_self_iff`). One that does is rewritten to a text that differs: the numbers of characters
differ by as many references as were rewritten, and where they do not, the binding stands in the place of an item
of the same length.
-/

namespace HtmlTemplate

theorem Pattern.replace_eq_self {α : Type} {p : Pattern α} {f : α → Text} {t : Text}
    (h : ∀ front behind a rest, t = front ++ behind → p.read behind = some (a, rest) → f a = p.print a) :
    p.replace f t = t := by
  unfold replace
  fun_induction pieces p t with
  | case1 t a rest hread ih =>
    have hrest := p.eq_append hread
    rw [List.flatMap_cons, ih fun front behind b rest' he => h (p.print a ++ front) behind b rest'
      (by rw [hrest, he, List.append_assoc])]
    exact (congrArg (· ++ rest) (h [] t a rest rfl hread)).trans hrest.symm
  | case2 => rfl
  | case3 c t _ ih =>
    simp only [wfParam] at ih
    rw [List.flatMap_cons, ih fun front behind b rest he => h (c :: front) behind b rest (by rw [he]; rfl)]
    rfl

/-- A lexeme before which reading stops has the character at its front only. -/
theorem Pattern.not_mem_tail_of_stopsBefore {α : Type} {p : Pattern α} {c : Char} (h : Text.StopsBefore c p.read)
    {t rest : Text} {a : α} (hread : p.read t = some (a, rest)) : c ∉ (p.print a).tail := by
  intro hc
  obtain ⟨u, v, huv⟩ := List.append_of_mem hc
  obtain ⟨d, s, hds⟩ := List.exists_cons_of_ne_nil (p.print_ne_nil hread)
  rw [hds, List.tail_cons] at huv
  have ht : t = d :: u ++ c :: (v ++ rest) := by
    rw [p.eq_append hread, hds, huv]
    simp
  rw [ht, h, Option.map_eq_some_iff] at hread
  obtain ⟨⟨b, rest'⟩, -, he⟩ := hread
  have hlength := congrArg List.length (Prod.mk.inj he).2
  simp only [List.length_append, List.length_cons] at hlength
  omega

namespace Reference

variable {item binding : Text}

/-- Whether a path is the item or goes on from it. -/
def Refers (item path : Text) : Prop := ∃ rest, path = item ++ rest ∧ (rest = [] ∨ rest.head? = some '.')

theorem rebase?_of_refers (binding : Text) {path : Text} (h : Refers item path) :
    ∃ rest, path = item ++ rest ∧ rebase? item binding path = some (binding ++ rest) := by
  obtain ⟨rest, rfl, hrest⟩ := h
  refine ⟨rest, rfl, ?_⟩
  rw [rebase?, Text.after?_append]
  exact if_pos (by simpa using hrest)

theorem rebase?_of_not_refers {path : Text} (h : ¬ Refers item path) : rebase? item binding path = none := by
  unfold rebase?
  split
  · next rest hrest =>
    refine if_neg fun hhead => h ⟨rest, Text.eq_append_of_after? hrest, ?_⟩
    simpa using hhead
  · rfl

theorem rebased_of_refers (binding : Text) {r : Reference} (h : Refers item r.path) :
    ∃ rest, r.path = item ++ rest ∧ rebased item binding r = r.lead ++ (binding ++ rest) := by
  obtain ⟨rest, hpath, hrebase⟩ := rebase?_of_refers binding h
  exact ⟨rest, hpath, by rw [rebased, hrebase, Option.getD_some]⟩

theorem rebased_of_not_refers {r : Reference} (h : ¬ Refers item r.path) : rebased item binding r = r.print := by
  rw [rebased, rebase?_of_not_refers h, Option.getD_none, print]

theorem rebased_self (r : Reference) : rebased item item r = r.print := by
  by_cases h : Refers item r.path
  · obtain ⟨rest, hpath, hrebased⟩ := rebased_of_refers item h
    rw [hrebased, ← hpath, print]
  · exact rebased_of_not_refers h

/-! ## References in a text -/

/-- Whether a text holds a reference of a pattern to the item. -/
def Holds (p : Pattern Reference) (item t : Text) : Prop :=
  ∃ front behind r rest, t = front ++ behind ∧ p.read behind = some (r, rest) ∧ Refers item r.path

/-- Whether something in a text reads as a guard or a loop over the item. -/
def Mentions (item t : Text) : Prop := Holds guardPattern item t ∨ Holds sourcePattern item t

variable {p : Pattern Reference} {t : Text}

theorem replace_rebased_self (hprint : p.print = print) (t : Text) : p.replace (rebased item item) t = t :=
  Pattern.replace_eq_self fun _ _ r _ _ _ => by rw [hprint, rebased_self]

theorem replace_eq_of_not_holds (hprint : p.print = print) (h : ¬ Holds p item t) :
    p.replace (rebased item binding) t = t :=
  Pattern.replace_eq_self fun front behind r rest he hread => by
    rw [hprint, rebased_of_not_refers fun hrefers => h ⟨front, behind, r, rest, he, hread, hrefers⟩]

theorem length_rebased (item binding : Text) (r : Reference) :
    ∃ n, (rebased item binding r).length + n * item.length = r.print.length + n * binding.length := by
  by_cases h : Refers item r.path
  · obtain ⟨rest, hpath, hrebased⟩ := rebased_of_refers binding h
    refine ⟨1, ?_⟩
    rw [hrebased, print, hpath]
    simp only [List.length_append]
    omega
  · exact ⟨0, by rw [rebased_of_not_refers h, Nat.zero_mul, Nat.zero_mul]⟩

theorem length_replace (hprint : p.print = print) (item binding t : Text) :
    ∃ n, (p.replace (rebased item binding) t).length + n * item.length = t.length + n * binding.length := by
  unfold Pattern.replace
  fun_induction Pattern.pieces p t with
  | case1 t r rest hread ih =>
    obtain ⟨m, hm⟩ := length_rebased item binding r
    obtain ⟨n, hn⟩ := ih
    refine ⟨m + n, ?_⟩
    rw [p.eq_append hread, hprint, List.flatMap_cons, List.length_append, List.length_append, Piece.print, Nat.add_mul,
      Nat.add_mul]
    omega
  | case2 => exact ⟨0, by simp⟩
  | case3 c t _ ih =>
    obtain ⟨n, hn⟩ := ih
    simp only [wfParam] at hn
    refine ⟨n, ?_⟩
    rw [List.flatMap_cons, List.length_append, List.length_cons, Piece.print, List.length_singleton]
    omega

theorem exists_replace_of_holds (binding : Text) (hprint : p.print = print) (hstops : Text.StopsBefore '*' p.read)
    (hread : ∀ {t r rest}, p.read t = some (r, rest) → r.Read) (h : Holds p item t) :
    ∃ front behind r rest path, p.read behind = some (r, rest) ∧ r.path = item ++ path ∧
      t = front ++ (r.lead ++ (item ++ (path ++ rest))) ∧
      p.replace (rebased item binding) t = p.replace (rebased item binding) front ++
        (r.lead ++ (binding ++ (path ++ p.replace (rebased item binding) rest))) := by
  obtain ⟨front, behind, r, rest, rfl, hr, hrefers⟩ := h
  obtain ⟨path, hpath, hrebased⟩ := rebased_of_refers binding hrefers
  have hbehind := p.eq_append hr
  rw [hprint, print, hpath] at hbehind
  refine ⟨front, behind, r, rest, path, hr, hpath, by simp [hbehind], ?_⟩
  obtain ⟨s, hs⟩ := List.head?_eq_some_iff.1 (hread hr).star
  have hcut : behind = '*' :: (s ++ (item ++ path ++ rest)) := by
    rw [hbehind, hs]
    simp
  have hwritten : p.replace (rebased item binding) behind =
      rebased item binding r ++ p.replace (rebased item binding) rest := by
    rw [Pattern.replace, p.pieces_of_read hr, List.flatMap_cons]
    rfl
  rw [hcut, Pattern.replace_append_of_stopsBefore hstops, ← hcut, hwritten, hrebased]
  simp only [List.append_assoc]

theorem exists_pos_length_replace (binding : Text) (hprint : p.print = print) (hstops : Text.StopsBefore '*' p.read)
    (hread : ∀ {t r rest}, p.read t = some (r, rest) → r.Read) (h : Holds p item t) :
    ∃ n, 0 < n ∧
      (p.replace (rebased item binding) t).length + n * item.length = t.length + n * binding.length := by
  obtain ⟨front, -, r, rest, path, -, -, ht, hreplace⟩ :=
    exists_replace_of_holds binding hprint hstops hread h
  obtain ⟨m, hm⟩ := length_replace hprint item binding front
  obtain ⟨n, hn⟩ := length_replace hprint item binding rest
  refine ⟨m + n + 1, Nat.succ_pos _, ?_⟩
  rw [hreplace, ht]
  simp only [List.length_append, Nat.add_mul]
  omega

/-! ## Both passes -/

def retargetDirectives (item binding t : Text) : Text :=
  retargetSources item binding (guardPattern.replace (rebased item binding) t)

theorem retargetDirectives_of_not_mentions (h : ¬ Mentions item t) : retargetDirectives item binding t = t := by
  obtain ⟨hguard, hsource⟩ := not_or.1 h
  rw [retargetDirectives, replace_eq_of_not_holds rfl hguard]
  exact replace_eq_of_not_holds rfl hsource

/-- Both passes leave a text with references as it is only if they exchange these for ones of the same length. -/
theorem length_eq_of_mentions (h : Mentions item t) (hsame : retargetDirectives item binding t = t) :
    binding.length = item.length := by
  have key : ∃ n, 0 < n ∧ n * item.length = n * binding.length := by
    by_cases hguard : Holds guardPattern item t
    · obtain ⟨m, hpos, hm⟩ := exists_pos_length_replace binding rfl readGuard_stopsBefore
        read_of_readGuard hguard
      obtain ⟨n, hn⟩ := length_replace (p := sourcePattern) rfl item binding
        (guardPattern.replace (rebased item binding) t)
      change (retargetDirectives item binding t).length + _ = _ at hn
      rw [hsame] at hn
      refine ⟨m + n, by omega, ?_⟩
      rw [Nat.add_mul, Nat.add_mul]
      omega
    · obtain ⟨n, hpos, hn⟩ := exists_pos_length_replace binding rfl readSource_stopsBefore
        read_of_readSource (h.resolve_left hguard)
      rw [retargetDirectives, replace_eq_of_not_holds rfl hguard] at hsame
      change (retargetSources item binding t).length + _ = _ at hn
      rw [hsame] at hn
      exact ⟨n, hpos, by omega⟩
  obtain ⟨n, hpos, hn⟩ := key
  exact (Nat.eq_of_mul_eq_mul_left hpos hn).symm

theorem length_replace_eq (hprint : p.print = print) (hlength : binding.length = item.length) (t : Text) :
    (p.replace (rebased item binding) t).length = t.length := by
  obtain ⟨n, hn⟩ := length_replace hprint item binding t
  rw [hlength] at hn
  omega

theorem writes_sources_lead {r : Reference} {rest : Text} (h : readGuard t = some (r, rest)) :
    Text.Writes (retargetSources item binding) r.lead r.lead := by
  have hstar := guardPattern.not_mem_tail_of_stopsBefore readGuard_stopsBefore h
  simp only [readGuard, Option.bind_eq_bind, Option.bind_eq_some_iff] at h
  obtain ⟨t₁, -, ⟨equals, t₂⟩, -, ⟨quote, t₃⟩, -, ⟨path, t₄⟩, -, he⟩ := h
  obtain ⟨rfl, -⟩ := Prod.mk.inj (Option.some.inj he)
  change '*' ∉ (Reference.print _).tail at hstar
  simp only [print, DirectiveKind.attributeName, List.cons_append, List.nil_append, List.tail_cons, List.mem_cons,
    List.mem_append, not_or] at hstar
  refine Pattern.writes_cons _ (fun rest => rfl) (writes_plain sourcePattern_opensWith _ ?_)
  simp only [List.mem_cons, List.mem_append, not_or, List.append_eq]
  tauto

theorem exists_retargetSources_star (item binding s : Text) : ∃ u, retargetSources item binding ('*' :: s) = '*' :: u := by
  unfold retargetSources Pattern.replace
  cases hread : sourcePattern.read ('*' :: s) with
  | none =>
    rw [sourcePattern.pieces_cons_of_read_none hread]
    exact ⟨_, rfl⟩
  | some found =>
    obtain ⟨r, rest⟩ := found
    obtain ⟨u, hu⟩ := List.head?_eq_some_iff.1 (read_of_readSource hread).star
    rw [sourcePattern.pieces_of_read hread, List.flatMap_cons, Piece.print, rebased, hu]
    exact ⟨_, rfl⟩

theorem eq_of_retargetSources_append (hlength : binding.length = item.length) (hstar : '*' ∉ item) {s u : Text}
    (h : retargetSources item binding (binding ++ s) = item ++ u) : binding = item := by
  by_cases hmem : '*' ∈ binding
  · -- a star of the binding is written where the item has none
    obtain ⟨v, w, hbinding, hv⟩ := List.eq_append_cons_of_mem hmem
    obtain ⟨x, hx⟩ := exists_retargetSources_star item binding (w ++ s)
    have hsplit : binding ++ s = v ++ '*' :: (w ++ s) := by
      rw [hbinding]
      simp
    have hwritten : retargetSources item binding (v ++ '*' :: (w ++ s)) = v ++ '*' :: x := by
      rw [← hx]
      exact writes_plain sourcePattern_opensWith _ hv _
    rw [hsplit, hwritten] at h
    have hshort : v.length < item.length := by
      rw [← hlength, hbinding, List.length_append, List.length_cons]
      omega
    rcases List.append_eq_append_iff.1 h with ⟨y, rfl, hy⟩ | ⟨y, rfl, -⟩
    · cases y with
      | nil => simp at hshort
      | cons c y =>
        obtain rfl := (List.cons.inj hy).1
        simp at hstar
    · simp at hshort
  · rw [retargetSources, writes_plain sourcePattern_opensWith _ hmem] at h
    exact (List.append_inj h hlength).1

theorem eq_of_mentions (h : Mentions item t) (hsame : retargetDirectives item binding t = t) : binding = item := by
  have hlength := length_eq_of_mentions h hsame
  have hnot : ∀ {r : Reference} {path : Text}, r.Read → r.path = item ++ path → '*' ∉ item := by
    intro r path hr hpath hmem
    have hchar := hr.path.all '*' (by rw [hpath]; exact List.mem_append_left _ hmem)
    exact absurd hchar (by decide)
  by_cases hguard : Holds guardPattern item t
  · obtain ⟨front, behind, r, rest, path, hr, hpath, ht, hreplace⟩ :=
      exists_replace_of_holds binding rfl readGuard_stopsBefore read_of_readGuard hguard
    obtain ⟨s, hs⟩ := List.head?_eq_some_iff.1 (read_of_readGuard hr).star
    -- the passes meet at the star, so what they write before it is as long as what stood there
    have hcut : retargetDirectives item binding t =
        retargetSources item binding (guardPattern.replace (rebased item binding) front) ++
          retargetSources item binding (r.lead ++ (binding ++ (path ++
            guardPattern.replace (rebased item binding) rest))) := by
      rw [retargetDirectives, hreplace, hs, List.cons_append]
      exact Pattern.replace_append_of_stopsBefore readSource_stopsBefore _ _ _
    have hfront : (retargetSources item binding (guardPattern.replace (rebased item binding) front)).length =
        front.length := by
      rw [retargetSources, length_replace_eq rfl hlength, length_replace_eq rfl hlength]
    rw [hcut, ht] at hsame
    have hbehind := (List.append_inj hsame hfront).2
    rw [writes_sources_lead hr] at hbehind
    exact eq_of_retargetSources_append hlength (hnot (read_of_readGuard hr) hpath) (List.append_cancel_left hbehind)
  · obtain ⟨front, behind, r, rest, path, hr, hpath, ht, hreplace⟩ :=
      exists_replace_of_holds binding rfl readSource_stopsBefore read_of_readSource
        (h.resolve_left hguard)
    rw [retargetDirectives, replace_eq_of_not_holds rfl hguard, retargetSources, hreplace] at hsame
    have hsame' := hsame.trans ht
    have hbehind := (List.append_inj hsame' (length_replace_eq rfl hlength front)).2
    exact (List.append_inj (List.append_cancel_left hbehind) hlength).1

theorem retargetDirectives_eq_self_iff :
    retargetDirectives item binding t = t ↔ binding = item ∨ ¬ Mentions item t := by
  constructor
  · intro hsame
    by_cases h : Mentions item t
    · exact .inl (eq_of_mentions h hsame)
    · exact .inr h
  · rintro (rfl | h)
    · rw [retargetDirectives, replace_rebased_self rfl]
      exact replace_rebased_self rfl t
    · exact retargetDirectives_of_not_mentions h

/-! ## Fragments without placeholders and loops -/

theorem replace_placeholders_of_not_braces (h : ¬ Placeholder.openBraces <:+: t) (f : Placeholder → Text) :
    Placeholder.pattern.replace f t = t := by
  refine Pattern.replace_eq_self fun front behind a rest he hread => absurd ?_ h
  refine ⟨front, a.before ++ a.path ++ a.after ++ Placeholder.closeBraces ++ rest, ?_⟩
  rw [he, Placeholder.eq_append_of_read hread, Placeholder.print]
  simp only [List.append_assoc]

theorem retarget_of_find?_eq_none {fragment : Text} (h : Directive.find? .loop (Markup.ofText fragment) = none) :
    retarget item binding fragment = .ok (retargetAll item binding fragment) := by
  have hloop := Markup.eq_none_of_cutAtTag_eq_none h
  have hcut : Markup.cutAtTag (shadowing? item) (Markup.ofText fragment) = none :=
    Markup.cutAtTag_eq_none fun tag htag => by rw [shadowing?, hloop tag htag, Option.filter_none]
  rw [retarget, retargetMarkup]
  split
  · rw [Markup.text_ofText]
  · next hsome => simp [hcut] at hsome

/-- A fragment without placeholders, of whose tags none carries a loop, is copied as it is just where nothing in it
reads as a guard or a loop over the item. -/
theorem retarget_eq_self_iff {item binding fragment : Text} (hbraces : ¬ Placeholder.openBraces <:+: fragment)
    (hloop : Directive.find? .loop (Markup.ofText fragment) = none) :
    retarget item binding fragment = .ok fragment ↔ binding = item ∨ ¬ Mentions item fragment := by
  have hpasses : retargetAll item binding fragment = retargetDirectives item binding fragment := by
    rw [retargetAll, replace_placeholders_of_not_braces hbraces, retargetDirectives]
  rw [retarget_of_find?_eq_none hloop, Except.ok.injEq, hpasses, retargetDirectives_eq_self_iff]

/-- Directives over other names are told from those over the item, also where no tag carries them. -/
theorem retarget_eq_self_rows :
    let fragment := "<p title=\"*if='items'\">*for=\"x of items.item\"</p>".toList
    let item := "item".toList
    let binding := "__templ_iter_0".toList
    ¬ Placeholder.openBraces <:+: fragment ∧ Directive.find? .loop (Markup.ofText fragment) = none ∧
      retarget item binding fragment = .ok fragment ∧ ¬ Mentions item fragment := by
  intro fragment item binding
  have hbraces : ¬ Placeholder.openBraces <:+: fragment := by decide +kernel
  have hloop : Directive.find? .loop (Markup.ofText fragment) = none := by decide +kernel
  have hsame : retarget item binding fragment = .ok fragment := by decide +kernel
  have hnot := ((retarget_eq_self_iff hbraces hloop).1 hsame).resolve_left (by decide)
  exact ⟨hbraces, hloop, hsame, hnot⟩

/-- Plain text that looks like a guard over the item is rewritten, although no tag carries a directive. -/
theorem retarget_lookalike :
    let fragment := "write *if=\"item\" here".toList
    ¬ Placeholder.openBraces <:+: fragment ∧ (∀ kind, Directive.find? kind (Markup.ofText fragment) = none) ∧
      retarget "item".toList "__templ_iter_0".toList fragment =
        .ok "write *if=\"__templ_iter_0\" here".toList ∧
      retarget "item".toList "__templ_iter_0".toList fragment ≠ .ok fragment := by
  intro fragment
  have hfind : ∀ kind, Directive.find? kind (Markup.ofText fragment) = none := by
    intro kind
    cases kind <;> decide +kernel
  have hretarget : retarget "item".toList "__templ_iter_0".toList fragment =
      .ok "write *if=\"__templ_iter_0\" here".toList := by decide +kernel
  refine ⟨by decide +kernel, hfind, hretarget, ?_⟩
  rw [hretarget]
  decide +kernel

end Reference
end HtmlTemplate
