import HtmlTemplate.Proofs.Directive.Paths
import HtmlTemplate.Proofs.Directive.WellFormed
import HtmlTemplate.Proofs.Text.Erase

/-!
# Retargeting and evaluation read the same directives

Retargeting finds guards and loops in plain text, by patterns of its own; evaluation finds them by scanning the
retargeted text for tags and reading the values of their attributes. Of a directive that evaluation reads, the
patterns see what `Text.Exchanges` says: it is written one way wherever it stands and whatever surrounds it. So the
tags of a retargeted fragment are those of the fragment, and their directives are the old ones with other paths
(`Reference.retarget_paths`).
-/

namespace HtmlTemplate

/-- Wherever `s` stands, `g` writes `t` in its place, and leaves no trace of it before or behind. -/
def Text.Exchanges (g : Text → Text) (s t : Text) : Prop := ∀ x y, g (x ++ (s ++ y)) = g x ++ (t ++ g y)

theorem Text.Exchanges.comp {g h : Text → Text} {s t u : Text} (hg : Exchanges g s t) (hh : Exchanges h t u) :
    Exchanges (fun x => h (g x)) s u := fun x y => by
  dsimp only
  rw [hg, hh]

theorem Pattern.exchanges {α : Type} {p : Pattern α} {f : α → Text} {c : Char} {s t : Text}
    (hstop : Text.StopsBefore c p.read) (h : Text.Writes (p.replace f) (c :: s) t) :
    Text.Exchanges (p.replace f) (c :: s) t := fun x y => by
  rw [List.cons_append, p.replace_append_of_stopsBefore hstop, ← List.cons_append, h]

/-! ## Attributes without the blank before them -/

namespace Attribute

/-- An attribute without the blank before it. -/
def core (name : Text) (a : Attribute) : Text :=
  name ++ (a.equals ++ a.quoted.quote :: (a.quoted.value ++ [a.quoted.quote]))

def withValue (a : Attribute) (value : Text) : Attribute := { a with quoted := { a.quoted with value := value } }

variable {a : Attribute} {item binding : Text}

theorem print_eq_core (name : Text) (a : Attribute) : a.print name = a.blank :: a.core name := print_eq name a

theorem Valid.withValue (h : a.Valid) {value : Text} (hvalue : a.quoted.quote ∉ value) :
    (a.withValue value).Valid := ⟨h.blank, h.equals, h.quote, hvalue⟩

theorem Valid.readEquals (h : a.Valid) (t : Text) :
    Text.readEquals (a.equals ++ a.quoted.quote :: t) = some (a.equals, a.quoted.quote :: t) := by
  obtain ⟨b, b', hb, hb', hequals⟩ := h.equals
  rw [hequals, List.append_assoc, List.cons_append]
  exact Text.readEquals_append hb hb' (Text.not_isBlank_of_isQuote h.quote)

/-- Behind its star, an attribute whose value has no star has none. -/
theorem Valid.exists_core (h : a.Valid) (kind : DirectiveKind) (hvalue : '*' ∉ a.quoted.value) :
    ∃ x, a.core kind.attributeName = '*' :: x ∧ '*' ∉ x := by
  obtain ⟨x, hx, hstar, -⟩ := h.not_mem_behind kind hvalue
  rw [print_eq_core] at hx
  exact ⟨x, (List.cons.inj hx).2, hstar⟩

end Attribute

namespace Reference

open Attribute (core withValue)
open Text (Exchanges IsPath Writes)

variable {a : Attribute} {item binding v w : Text} {r : Reference}

/-! ## What the passes read of a directive -/

theorem writes_placeholders_value (ha : a.Valid) (kind : DirectiveKind) (f : Placeholder → Text) :
    Writes (Placeholder.pattern.replace f) (a.core kind.attributeName)
      ((a.withValue (Placeholder.pattern.replace f a.quoted.value)).core kind.attributeName) := by
  have hstop : Text.StopsAt a.quoted.quote Placeholder.pattern.read := by
    have hquote := Text.isQuote_iff.1 ha.quote
    refine Placeholder.read_stopsAt (Text.not_isBlank_of_isQuote ha.quote) ?_ ?_ ?_
    all_goals rcases hquote with hq | hq <;> rw [hq] <;> decide
  have hopening : '\x7b' ∉ kind.attributeName ++ a.equals := by
    obtain ⟨b, b', hb, hb', hequals⟩ := ha.equals
    have hname : '\x7b' ∉ kind.attributeName := by cases kind <;> decide
    have hblank : ∀ {w : Text}, (∀ c ∈ w, Text.isBlank c = true) → '\x7b' ∉ w := fun hw hmem =>
      absurd (hw _ hmem) (by decide)
    simp [hequals, hname, hblank hb, hblank hb']
  intro rest
  have hrest := Placeholder.pattern.replace_append_of_stopsAt hstop f []
    (a.quoted.value ++ a.quoted.quote :: rest)
  rw [Placeholder.pattern.replace_append_of_stopsAt hstop f a.quoted.value rest] at hrest
  have hplain := Placeholder.writes_plain f hopening
    (a.quoted.quote :: (a.quoted.value ++ a.quoted.quote :: rest))
  simp only [List.nil_append, Pattern.replace, Pattern.pieces_nil, List.flatMap_nil] at hrest hplain
  simp only [core, withValue, Pattern.replace, List.append_assoc, List.cons_append, List.nil_append] at hplain ⊢
  rw [hplain, hrest]

theorem writes_placeholders (ha : a.Valid) (kind : DirectiveKind) (f : Placeholder → Text)
    (hvalue : Placeholder.pattern.find? a.quoted.value = none) :
    Writes (Placeholder.pattern.replace f) (a.core kind.attributeName) (a.core kind.attributeName) := by
  have hkept : Placeholder.pattern.replace f a.quoted.value = a.quoted.value := by
    rw [Pattern.replace, Pattern.pieces_of_find?_eq_none hvalue, Piece.flatMap_print_map_char]
  have hwrites := writes_placeholders_value ha kind f
  rwa [hkept] at hwrites

theorem writes_core {p : Pattern Reference} (hp : p.OpensWith (· == '*')) (f : Reference → Text) (ha : a.Valid)
    {kind : DirectiveKind} (hnone : ∀ rest, p.read (a.core kind.attributeName ++ rest) = none)
    (hvalue : '*' ∉ a.quoted.value) :
    Writes (p.replace f) (a.core kind.attributeName) (a.core kind.attributeName) := by
  obtain ⟨x, hx, hstar⟩ := ha.exists_core kind hvalue
  rw [hx] at hnone ⊢
  exact Pattern.writes_cons f hnone (writes_plain hp f hstar)

def leadOfGuard (a : Attribute) : Text :=
  DirectiveKind.guard.attributeName ++ (a.equals ++ a.quoted.quote :: (a.quoted.value.takeWhile Text.isBlank ++
    (readNegation (a.quoted.value.dropWhile Text.isBlank)).1))

theorem readGuard_core (ha : a.Valid) (rest : Text) :
    readGuard (a.core DirectiveKind.guard.attributeName ++ rest) =
      (Text.readRun isPathChar (readNegation (a.quoted.value.dropWhile Text.isBlank)).2).map fun (path, w) =>
        (⟨leadOfGuard a, path⟩, w ++ a.quoted.quote :: rest) := by
  have hquote := Text.isQuote_iff.1 ha.quote
  have hblank := Text.not_isBlank_of_isQuote ha.quote
  have hnot : a.quoted.quote ≠ '!' := by rcases hquote with hq | hq <;> rw [hq] <;> decide
  have hpath := not_isPathChar_of_isQuote ha.quote
  simp only [core, List.append_assoc, List.cons_append, List.nil_append, readGuard, Text.after?_append,
    Option.bind_eq_bind, Option.bind_some, ha.readEquals, readQuote_cons ha.quote, Text.takeWhile_append_cons hblank,
    Text.dropWhile_append_cons hblank, readNegation_append_cons hblank hnot, Text.readRun_stopsAt hpath _ _]
  cases Text.readRun isPathChar (readNegation (a.quoted.value.dropWhile Text.isBlank)).2 with
  | none => rfl
  | some found => simp [leadOfGuard]

theorem written_of_readRun (item binding : Text) {path u w : Text} (h : Text.readRun isPathChar path = some (u, w)) :
    path = u ++ w ∧ written item binding path = (rebase? item binding u).getD u ++ w := by
  refine ⟨(Text.eq_append_of_readRun h).1, ?_⟩
  unfold Text.readRun at h
  split at h
  · simp at h
  · obtain ⟨rfl, rfl⟩ := Prod.mk.inj (Option.some.inj h)
    rfl

theorem written_of_readRun_eq_none (hitem : item ≠ []) {path : Text} (h : Text.readRun isPathChar path = none) :
    written item binding path = path := by
  have hsplit := List.takeWhile_append_dropWhile (p := isPathChar) (l := path)
  unfold Text.readRun at h
  split at h
  · next hnil =>
    rw [hnil, List.nil_append] at hsplit
    obtain ⟨c, r, rfl⟩ := List.exists_cons_of_ne_nil hitem
    rw [written, hnil, hsplit]
    rfl
  · simp at h

theorem writes_lexeme (item binding : Text) {p : Pattern Reference} (hp : p.OpensWith (· == '*')) {r : Reference} {s w : Text}
    (hread : ∀ rest, p.read (s ++ rest) = some (r, w ++ rest)) (hs : s = r.print ++ w) (hw : '*' ∉ w) :
    Writes (p.replace (rebased item binding)) s (rebased item binding r ++ w) := by
  rw [hs] at hread ⊢
  refine Pattern.writes_of_read (rebased item binding) (fun rest => ?_) (writes_plain hp _ hw)
  rw [← List.append_assoc]
  exact hread rest

theorem writes_guard (binding : Text) (ha : a.Valid) (hitem : item ≠ []) (hstar : '*' ∉ a.quoted.value) :
    Writes (guardPattern.replace (rebased item binding)) (a.core DirectiveKind.guard.attributeName)
      ((a.withValue (writtenGuard item binding a.quoted.value)).core DirectiveKind.guard.attributeName) := by
  have hread := readGuard_core ha
  have hvalue := List.takeWhile_append_dropWhile (p := Text.isBlank) (l := a.quoted.value)
  have hmark := readNegation_append (a.quoted.value.dropWhile Text.isBlank)
  have hwritten : writtenGuard item binding a.quoted.value = a.quoted.value.takeWhile Text.isBlank ++
    ((readNegation (a.quoted.value.dropWhile Text.isBlank)).1 ++
      written item binding (readNegation (a.quoted.value.dropWhile Text.isBlank)).2) := rfl
  cases hrun : Text.readRun isPathChar (readNegation (a.quoted.value.dropWhile Text.isBlank)).2 with
  | none =>
    rw [hrun] at hread
    rw [hwritten, written_of_readRun_eq_none hitem hrun, hmark, hvalue]
    exact writes_core guardPattern_opensWith _ ha hread hstar
  | some found =>
    obtain ⟨path, w⟩ := found
    obtain ⟨hpath, hrebased⟩ := written_of_readRun item binding hrun
    rw [hpath] at hmark
    have hcore : a.core DirectiveKind.guard.attributeName =
        (⟨leadOfGuard a, path⟩ : Reference).print ++ (w ++ [a.quoted.quote]) := by
      rw [core]
      conv_lhs => rw [← hvalue, ← hmark]
      simp [print, leadOfGuard]
    have hrest : '*' ∉ w ++ [a.quoted.quote] := by
      have hquote : '*' ≠ a.quoted.quote := ha.ne_star.2.1.symm
      have hw : '*' ∉ w := fun hmem => hstar (by rw [← hvalue, ← hmark]; simp [hmem])
      simp [hw, hquote]
    have hwrites := writes_lexeme item binding guardPattern_opensWith
      (fun rest => (hread rest).trans (by simp [hrun])) hcore hrest
    rw [hwritten, hrebased]
    simpa [core, withValue, rebased, leadOfGuard] using hwrites

/-- Reads the path of the source in the value of a loop, which need not be an expression. -/
def readValue (v : Text) : Option (Reference × Text) := do
  let (name, t) ← Text.readRun Text.isWord (v.dropWhile Text.isBlank)
  let (gap, t) ← Text.readRun Text.isBlank t
  let t ← Text.after? LoopExpr.keyword t
  let (space, t) ← Text.readRun Text.isBlank t
  let (path, rest) ← Text.readRun isPathChar t
  return (⟨v.takeWhile Text.isBlank ++ (name ++ (gap ++ (LoopExpr.keyword ++ space))), path⟩, rest)

/-- The value of a loop after its source was retargeted. -/
def writtenSource (item binding v : Text) : Text :=
  match readValue v with
  | some (r, w) => rebased item binding r ++ w
  | none => v

/-- What leads up to the path of a source: the name of an item and the keyword, with blanks around them. -/
structure LeadsToSource (lead name : Text) : Prop where
  name_ne_nil : name ≠ []
  isWord : ∀ c ∈ name, Text.isWord c = true
  split : ∃ b gap space, lead = b ++ (name ++ (gap ++ (LoopExpr.keyword ++ space))) ∧
    (∀ c ∈ b, Text.isBlank c = true) ∧ (gap ≠ [] ∧ ∀ c ∈ gap, Text.isBlank c = true) ∧
      space ≠ [] ∧ ∀ c ∈ space, Text.isBlank c = true

theorem of_readValue (h : readValue v = some (r, w)) :
    (∃ name, LeadsToSource r.lead name) ∧ IsPath r.path ∧ v = r.print ++ w := by
  simp only [readValue, Option.bind_eq_bind, Option.bind_eq_some_iff] at h
  obtain ⟨⟨name, t₁⟩, h₁, ⟨gap, t₂⟩, h₂, t₃, h₃, ⟨space, t₄⟩, h₄, ⟨path, t₅⟩, h₅, he⟩ := h
  obtain ⟨rfl, rfl⟩ := Prod.mk.inj (Option.some.inj he)
  have hsplit := List.takeWhile_append_dropWhile (p := Text.isBlank) (l := v)
  dsimp only at h₂ h₃ h₄ h₅ ⊢
  refine ⟨⟨name, (Text.eq_append_of_readRun h₁).2, Text.forall_mem_of_readRun h₁, _, gap, space, rfl,
    fun c => List.mem_takeWhile_imp, ⟨(Text.eq_append_of_readRun h₂).2, Text.forall_mem_of_readRun h₂⟩,
    (Text.eq_append_of_readRun h₄).2, Text.forall_mem_of_readRun h₄⟩, Text.isPath_of_readRun h₅, ?_⟩
  rw [(Text.eq_append_of_readRun h₁).1, (Text.eq_append_of_readRun h₂).1, Text.eq_append_of_after? h₃,
    (Text.eq_append_of_readRun h₄).1, (Text.eq_append_of_readRun h₅).1] at hsplit
  exact hsplit.symm.trans (by simp [print])

theorem readSource_core (ha : a.Valid) (rest : Text) :
    readSource (a.core DirectiveKind.loop.attributeName ++ rest) = (readValue a.quoted.value).map fun (r, w) =>
      (⟨DirectiveKind.loop.attributeName ++ (a.equals ++ a.quoted.quote :: r.lead), r.path⟩,
        w ++ a.quoted.quote :: rest) := by
  have hquote := Text.isQuote_iff.1 ha.quote
  have hblank := Text.not_isBlank_of_isQuote ha.quote
  have hpath := not_isPathChar_of_isQuote ha.quote
  have hword : Text.isWord a.quoted.quote = false := by rcases hquote with hq | hq <;> rw [hq] <;> decide
  have hkeyword : a.quoted.quote ∉ LoopExpr.keyword := by rcases hquote with hq | hq <;> rw [hq] <;> decide
  simp only [core, List.append_assoc, List.cons_append, List.nil_append, readSource, readValue, Text.after?_append,
    Option.bind_eq_bind, Option.bind_some, ha.readEquals, readQuote_cons ha.quote, Text.takeWhile_append_cons hblank,
    Text.dropWhile_append_cons hblank, Text.readRun_stopsAt hword _ _]
  cases Text.readRun Text.isWord (a.quoted.value.dropWhile Text.isBlank) with
  | none => rfl
  | some name =>
    simp only [Option.map_some, Option.bind_some, Text.readRun_stopsAt hblank _ _]
    cases Text.readRun Text.isBlank name.2 with
    | none => rfl
    | some gap =>
      simp only [Option.map_some, Option.bind_some, Text.after?_append_cons hkeyword]
      cases Text.after? LoopExpr.keyword gap.2 with
      | none => rfl
      | some t =>
        simp only [Option.map_some, Option.bind_some, Text.readRun_stopsAt hblank _ _]
        cases Text.readRun Text.isBlank t with
        | none => rfl
        | some space =>
          simp only [Option.map_some, Option.bind_some, Text.readRun_stopsAt hpath _ _]
          cases Text.readRun isPathChar space.2 with
          | none => rfl
          | some _ => simp

theorem readValue_layout (l : LoopExpr.Layout) {e : LoopExpr} (hname : LoopExpr.isIdentifier e.item = true)
    (hsource : LoopExpr.isPath e.source = true) :
    readValue (l.text e) =
      if e.item.all Text.isWord then
        (Text.readRun isPathChar e.source).map fun (path, w) =>
          (⟨l.before ++ (e.item ++ (l.gap ++ (LoopExpr.keyword ++ l.space))), path⟩, w ++ l.after)
      else none := by
  obtain ⟨hne, hall⟩ := LoopExpr.isIdentifier_iff.1 hname
  have hsolid : ∀ c ∈ e.item, Text.isBlank c = false := fun c hc => LoopExpr.not_isBlank_of_isNameChar (hall c hc)
  have hhead : ∀ t c, (e.item ++ t).head? = some c → Text.isBlank c = false := by
    intro t c hc
    rw [List.head?_append_of_ne_nil _ hne] at hc
    exact hsolid c (List.mem_of_head? hc)
  simp only [LoopExpr.Layout.text, readValue, Text.takeWhile_blanks l.before_blank (hhead _), Option.bind_eq_bind]
  split
  · next hword =>
    have hitem : ∀ t, Text.readRun Text.isWord (e.item ++ (l.gap ++ t)) = some (e.item, l.gap ++ t) := by
      intro t
      obtain ⟨c, r, hcr⟩ := List.exists_cons_of_ne_nil l.gap_ne_nil
      rw [hcr]
      exact Text.readRun_append hne (List.all_eq_true.1 hword)
        (Text.not_isWord_of_isBlank (l.gap_blank c (by simp [hcr]))) _
    have hgap := Text.readRun_blanks l.gap_blank l.gap_ne_nil (show LoopExpr.keyword ≠ [] by decide)
      LoopExpr.not_isBlank_of_mem_keyword
    have hspace := Text.readRun_blanks l.space_blank l.space_ne_nil (LoopExpr.ne_nil_of_isPath hsource)
      (LoopExpr.not_isBlank_of_isPath hsource)
    have hend := Text.readRun_append_blanks (fun c => not_isPathChar_of_isBlank) e.source l.after_blank
    simp only [hitem, Option.bind_some, hgap, Text.after?_append, hspace, hend]
    cases Text.readRun isPathChar e.source with
    | none => rfl
    | some found => rfl
  · next hword =>
    rw [Option.bind_eq_none_iff]
    rintro ⟨run, rest⟩ hrun
    dsimp only
    rw [Text.readRun_isBlank_eq_none hsolid hword hrun]
    rfl

theorem writtenSource_layout (binding : Text) (hitem : item ≠ []) (l : LoopExpr.Layout) {e : LoopExpr}
    (hname : LoopExpr.isIdentifier e.item = true) (hsource : LoopExpr.isPath e.source = true) :
    writtenSource item binding (l.text e) = l.text (e.retargeted item binding) := by
  rw [writtenSource, readValue_layout l hname hsource, LoopExpr.retargeted]
  split_ifs with hword
  · cases hrun : Text.readRun isPathChar e.source with
    | none => simp [written_of_readRun_eq_none hitem hrun]
    | some found =>
      obtain ⟨path, w⟩ := found
      rw [(written_of_readRun item binding hrun).2]
      simp [rebased, LoopExpr.Layout.text]
  · rfl

theorem not_mem_layout {l : LoopExpr.Layout} {e : LoopExpr} (hname : LoopExpr.isIdentifier e.item = true)
    (hsource : LoopExpr.isPath e.source = true) {c : Char} (hblank : Text.isBlank c = false)
    (hc : LoopExpr.isNameChar c = false) (hpoint : c ≠ '.') : c ∉ l.text e := by
  have hkeyword : c ∉ LoopExpr.keyword := by
    intro hmem
    have hall : LoopExpr.keyword.all LoopExpr.isNameChar = true := by decide
    simp [List.all_eq_true.1 hall c hmem] at hc
  have hblanks : ∀ {b : Text}, (∀ d ∈ b, Text.isBlank d = true) → c ∉ b := fun hb hmem => by
    simp [hb c hmem] at hblank
  have hpath : c ∉ e.source := fun hmem => by
    rcases LoopExpr.eq_point_or_of_isPath hsource c hmem with he | he
    · exact hpoint he
    · simp [he] at hc
  simp [LoopExpr.Layout.text, hblanks l.before_blank, hblanks l.gap_blank, hblanks l.space_blank,
    hblanks l.after_blank, LoopExpr.not_mem_of_isIdentifier hname hc, hkeyword, hpath]

theorem writes_source_value (ha : a.Valid) (hstar : '*' ∉ a.quoted.value) :
    Writes (sourcePattern.replace (rebased item binding)) (a.core DirectiveKind.loop.attributeName)
      ((a.withValue (writtenSource item binding a.quoted.value)).core DirectiveKind.loop.attributeName) := by
  have hread := readSource_core ha
  unfold writtenSource
  cases hvalue : readValue a.quoted.value with
  | none =>
    rw [hvalue] at hread
    exact writes_core sourcePattern_opensWith _ ha hread hstar
  | some found =>
    obtain ⟨r, w⟩ := found
    rw [hvalue] at hread
    obtain ⟨-, -, hv⟩ := of_readValue hvalue
    have hcore : a.core DirectiveKind.loop.attributeName =
        (⟨DirectiveKind.loop.attributeName ++ (a.equals ++ a.quoted.quote :: r.lead), r.path⟩ : Reference).print ++
          (w ++ [a.quoted.quote]) := by
      rw [core, hv]
      simp [print]
    have hrest : '*' ∉ w ++ [a.quoted.quote] := by
      have hquote : '*' ≠ a.quoted.quote := ha.ne_star.2.1.symm
      have hw : '*' ∉ w := fun hmem => hstar (by rw [hv]; exact List.mem_append_right _ hmem)
      simp [hw, hquote]
    have hwrites := writes_lexeme item binding sourcePattern_opensWith (fun rest => (hread rest).trans (by simp)) hcore hrest
    simpa [core, withValue, rebased] using hwrites

theorem writes_source (binding : Text) (ha : a.Valid) (hitem : item ≠ []) {l : LoopExpr.Layout} {e : LoopExpr}
    (hvalue : a.quoted.value = l.text e) (hname : LoopExpr.isIdentifier e.item = true)
    (hsource : LoopExpr.isPath e.source = true) :
    Writes (sourcePattern.replace (rebased item binding)) (a.core DirectiveKind.loop.attributeName)
      ((a.withValue (l.text (e.retargeted item binding))).core DirectiveKind.loop.attributeName) := by
  have hstar : '*' ∉ a.quoted.value := by
    rw [hvalue]
    exact not_mem_layout hname hsource (by decide) (by decide) (by decide)
  rw [← writtenSource_layout binding hitem l hname hsource, ← hvalue]
  exact writes_source_value ha hstar

/-! ## The passes together -/

theorem mem_written (hitem : '.' ∉ item) (hbinding : binding.IsPath) {path : Text} {c : Char}
    (h : c ∈ written item binding path) : c ∈ path ∨ isPathChar c = true := by
  rcases written_cases hitem path with he | ⟨rest, rfl, he⟩
  · exact .inl (he ▸ h)
  · rw [he, List.mem_append] at h
    rcases h with h | h
    · exact .inr (hbinding.all c h)
    · exact .inl (List.mem_append_right _ h)

theorem not_mem_writtenGuard (hitem : '.' ∉ item) (hbinding : binding.IsPath) {value : Text} {c : Char}
    (hc : isPathChar c = false) (h : c ∉ value) : c ∉ writtenGuard item binding value := by
  have hvalue := List.takeWhile_append_dropWhile (p := Text.isBlank) (l := value)
  have hmark := readNegation_append (value.dropWhile Text.isBlank)
  rw [← hvalue, ← hmark] at h
  simp only [List.mem_append, not_or] at h
  obtain ⟨hblanks, hnegation, hpath⟩ := h
  unfold writtenGuard
  simp only [List.mem_append, not_or]
  refine ⟨hblanks, hnegation, fun hmem => ?_⟩
  rcases mem_written hitem hbinding hmem with hmem | hmem
  · exact hpath hmem
  · simp [hmem] at hc

theorem exchanges_of_writes_placeholders {f : Placeholder → Text} (ha : a.Valid) (kind : DirectiveKind)
    (hstar : '*' ∉ a.quoted.value) {t : Text} (h : Writes (Placeholder.pattern.replace f) (a.core kind.attributeName) t) :
    Exchanges (Placeholder.pattern.replace f) (a.core kind.attributeName) t := by
  obtain ⟨x, hx, -⟩ := ha.exists_core kind hstar
  rw [hx] at h ⊢
  refine Pattern.exchanges (Text.StopsAt.stopsBefore ?_) h
  exact Placeholder.read_stopsAt (by decide) (by decide) (by decide) (by decide)

theorem exchanges_placeholders (ha : a.Valid) (kind : DirectiveKind) (f : Placeholder → Text)
    (hplain : Placeholder.pattern.find? a.quoted.value = none) (hstar : '*' ∉ a.quoted.value) :
    Exchanges (Placeholder.pattern.replace f) (a.core kind.attributeName) (a.core kind.attributeName) :=
  exchanges_of_writes_placeholders ha kind hstar (writes_placeholders ha kind f hplain)

theorem exchanges_references {p : Pattern Reference} {f : Reference → Text} (hstop : Text.StopsBefore '*' p.read) (ha : a.Valid)
    (kind : DirectiveKind) (hstar : '*' ∉ a.quoted.value) {t : Text}
    (h : Writes (p.replace f) (a.core kind.attributeName) t) :
    Exchanges (p.replace f) (a.core kind.attributeName) t := by
  obtain ⟨x, hx, -⟩ := ha.exists_core kind hstar
  rw [hx] at h ⊢
  exact Pattern.exchanges hstop h

theorem exchanges_guard (hitem : LoopExpr.isIdentifier item = true) (hbinding : binding.IsPath) (ha : a.Valid)
    (hplain : Placeholder.pattern.find? a.quoted.value = none) (hstar : '*' ∉ a.quoted.value) :
    Exchanges (retargetAll item binding) (a.core DirectiveKind.guard.attributeName)
      ((a.withValue (writtenGuard item binding a.quoted.value)).core DirectiveKind.guard.attributeName) := by
  have hpoint : '.' ∉ item := LoopExpr.not_mem_of_isIdentifier hitem (by decide)
  have ha' := ha.withValue
    (not_mem_writtenGuard hpoint hbinding (not_isPathChar_of_isQuote ha.quote) ha.value)
  have hstar' := not_mem_writtenGuard hpoint hbinding (by decide) hstar
  have hguard := exchanges_references readGuard_stopsBefore ha .guard hstar
    (writes_guard binding ha (LoopExpr.isIdentifier_iff.1 hitem).1 hstar)
  have hsource := exchanges_references readSource_stopsBefore ha' .guard hstar'
    (writes_core sourcePattern_opensWith (rebased item binding) ha' (fun rest => rfl) hstar')
  exact ((exchanges_placeholders ha .guard _ hplain hstar).comp hguard).comp hsource

theorem exchanges_loop (hitem : LoopExpr.isIdentifier item = true) (ha : a.Valid)
    {l : LoopExpr.Layout} {e : LoopExpr} (hvalue : a.quoted.value = l.text e)
    (hname : LoopExpr.isIdentifier e.item = true) (hsource : LoopExpr.isPath e.source = true) :
    Exchanges (retargetAll item binding) (a.core DirectiveKind.loop.attributeName)
      ((a.withValue (l.text (e.retargeted item binding))).core DirectiveKind.loop.attributeName) := by
  have hnot : ∀ {c : Char}, Text.isBlank c = false → LoopExpr.isNameChar c = false → c ≠ '.' → c ∉ a.quoted.value := by
    intro c hblank hc hne
    rw [hvalue]
    exact not_mem_layout hname hsource hblank hc hne
  have hstar : '*' ∉ a.quoted.value := hnot (by decide) (by decide) (by decide)
  have hplain : Placeholder.pattern.find? a.quoted.value = none := by
    apply Pattern.find?_eq_none_of_pieces
    have hbrace : '\x7b' ∉ a.quoted.value := hnot (by decide) (by decide) (by decide)
    have hpieces := Placeholder.pattern_opensWith.pieces_append (s := a.quoted.value)
      (fun c hc => by simpa using fun he : c = '\x7b' => hbrace (he ▸ hc)) []
    intro placeholder hmem
    rw [List.append_nil] at hpieces
    simp [hpieces] at hmem
  have hguard := exchanges_references readGuard_stopsBefore ha .loop hstar
    (writes_core guardPattern_opensWith (rebased item binding) ha (fun rest => rfl) hstar)
  have hsources := exchanges_references readSource_stopsBefore ha .loop hstar
    (writes_source binding ha (LoopExpr.isIdentifier_iff.1 hitem).1 hvalue hname hsource)
  exact ((exchanges_placeholders ha .loop _ hplain hstar).comp hguard).comp hsources

end Reference

/-! ## Directives of retargeted tags -/

theorem Text.eq_of_append_cons {s t u v : Text} {c : Char} (h : s ++ c :: t = u ++ c :: v)
    (hcount : s.count c = u.count c) : s = u ∧ t = v := by
  have hcut : ∀ {s t w v : Text}, c :: t = w ++ c :: v → s.count c = (s ++ w).count c → w = [] := by
    intro s t w v hw hw'
    cases w with
    | nil => rfl
    | cons d w =>
      rw [(List.cons.inj hw).1, List.count_append, List.count_cons_self] at hw'
      omega
  rcases List.append_eq_append_iff.1 h with ⟨w, rfl, hw⟩ | ⟨w, rfl, hw⟩
  · obtain rfl := hcut hw hcount
    simpa using hw
  · obtain rfl := hcut hw hcount.symm
    simpa using hw.symm

namespace Directive

variable {kind : DirectiveKind} {tag : Tag} {d : Directive} {item binding : Text}

theorem exists_ofTag?_mapBody {α : Type} {p : Pattern α} {f : α → Text}
    (hf : ∀ {t a rest}, p.read t = some (a, rest) → Text.Alike (p.print a) (f a)) (hd : ofTag? kind tag = some d) :
    ∃ d', ofTag? kind (tag.mapBody (p.replace f)) = some d' ∧ d'.front.count '*' = d.front.count '*' := by
  have halike : tag.Alike (tag.mapBody (p.replace f)) := ⟨rfl, rfl, Text.alike_replace hf tag.body⟩
  obtain ⟨d', hd', hfront, -⟩ := exists_of_alike halike hd
  exact ⟨d', hd', (hfront.count_eq (by decide)).symm⟩

theorem exists_ofTag?_retargetAll (item : Text) (hbinding : binding.IsPath) (hd : ofTag? kind tag = some d) :
    ∃ d', ofTag? kind (tag.mapBody (Reference.retargetAll item binding)) = some d' ∧
      d'.front.count '*' = d.front.count '*' := by
  obtain ⟨d₁, hd₁, hcount₁⟩ := exists_ofTag?_mapBody (p := Placeholder.pattern)
    (f := Reference.rebasedPlaceholder item binding) (Reference.alike_rebasedPlaceholder hbinding) hd
  obtain ⟨d₂, hd₂, hcount₂⟩ := exists_ofTag?_mapBody (p := Reference.guardPattern)
    (f := Reference.rebased item binding) (fun h => (Reference.read_of_readGuard h).alike hbinding) hd₁
  obtain ⟨d₃, hd₃, hcount₃⟩ := exists_ofTag?_mapBody (p := Reference.sourcePattern)
    (f := Reference.rebased item binding) (fun h => (Reference.read_of_readSource h).alike hbinding) hd₂
  exact ⟨d₃, hd₃, by rw [hcount₃, hcount₂, hcount₁]⟩

theorem count_retargetAll (item : Text) (hbinding : binding.IsPath) {c : Char} (hc : Text.isMark c = true) (t : Text) :
    (Reference.retargetAll item binding t).count c = t.count c := by
  rw [Reference.retargetAll, Reference.retargetSources,
    ← (Text.alike_replace (fun h => (Reference.read_of_readSource h).alike hbinding) _).count_eq hc,
    ← (Text.alike_replace (fun h => (Reference.read_of_readGuard h).alike hbinding) _).count_eq hc,
    ← (Text.alike_replace (Reference.alike_rebasedPlaceholder hbinding) _).count_eq hc]

/-- A directive that is exchanged wherever it stands is read in the rewritten tag where as many stars stand before it. -/
theorem value_eq_of_exchanges {g : Text → Text} (hlocal : Text.Local (fun _ => True) g) (htag : tag.Proper)
    {a a' : Attribute} {value front back before behind rest : Text} (ha : a.Valid) (hquote : a.quoted.quote ∉ value)
    (h : Text.Exchanges g (a.core kind.attributeName) ((a.withValue value).core kind.attributeName))
    (hprint : tag.print = front ++ [a.blank] ++ (a.core kind.attributeName ++ back))
    (hprint' : (tag.mapBody g).print = before ++ [a'.blank] ++ '*' :: behind)
    (hread : Attribute.read kind.attributeName (a'.blank :: '*' :: behind) = some (a', rest))
    (hcount : (before ++ [a'.blank]).count '*' = (g (front ++ [a.blank])).count '*') : a'.quoted.value = value := by
  -- the rewritten tag is cut at the exchanged directive and at the one that is read
  have hsplit : (tag.mapBody g).print = g (front ++ [a.blank]) ++
      ((a.withValue value).core kind.attributeName ++ g back) := by
    have hrewrite := Markup.rewrite_print hlocal htag [] []
    simp only [hlocal.nil, List.nil_append, List.append_nil] at hrewrite
    rw [← hrewrite, hprint, ← h]
  obtain ⟨name, hkind, -⟩ := attributeName_eq kind
  have hcore : ∀ a : Attribute, a.core kind.attributeName = '*' :: a.core name := fun a => by
    rw [Attribute.core, hkind]
    rfl
  have hsame := hprint'.symm.trans hsplit
  rw [hcore, List.cons_append] at hsame
  have hrest := (Text.eq_of_append_cons hsame hcount).2
  have hvalid' := Attribute.valid_of_read hread
  have hexchanged : ({ a.withValue value with blank := a'.blank } : Attribute).Valid :=
    ⟨hvalid'.blank, ha.equals, ha.quote, hquote⟩
  have hread' := hexchanged.read_print kind.attributeName (g back)
  rw [Attribute.print_eq_core, hcore, List.cons_append, List.cons_append] at hread'
  change Attribute.read kind.attributeName (a'.blank :: '*' :: ((a.withValue value).core name ++ g back)) = _ at hread'
  rw [← hrest, hread] at hread'
  rw [(Prod.mk.inj (Option.some.inj hread')).1]
  rfl

/-- A directive that is exchanged wherever it stands is the one that a scan of the retargeted tag finds. -/
theorem exists_value_retargetAll (hbinding : binding.IsPath) (htag : tag.Proper) (hd : ofTag? kind tag = some d)
    {value : Text} (hquote : d.attr.quoted.quote ∉ value)
    (h : Text.Exchanges (Reference.retargetAll item binding) (d.attr.core kind.attributeName)
      ((d.attr.withValue value).core kind.attributeName)) :
    ∃ d', ofTag? kind (tag.mapBody (Reference.retargetAll item binding)) = some d' ∧ d'.value = value := by
  obtain ⟨d', hd', hcount⟩ := exists_ofTag?_retargetAll item hbinding hd
  have hvalid := valid_of_ofTag? hd
  have hvalid' := valid_of_ofTag? hd'
  obtain ⟨name, hkind, -⟩ := attributeName_eq kind
  have hcore : d'.attr.print kind.attributeName ++ d'.back = d'.attr.blank :: '*' :: (d'.attr.core name ++ d'.back) := by
    rw [Attribute.print_eq_core, Attribute.core, hkind]
    rfl
  have hprint : tag.print = d.front ++ [d.attr.blank] ++ (d.attr.core kind.attributeName ++ d.back) := by
    rw [(print_tag_of_ofTag? hd).2.2, Attribute.print_eq_core]
    simp
  have hprint' : (tag.mapBody (Reference.retargetAll item binding)).print =
      d'.front ++ [d'.attr.blank] ++ '*' :: (d'.attr.core name ++ d'.back) := by
    rw [(print_tag_of_ofTag? hd').2.2, List.append_assoc, hcore]
    simp
  refine ⟨d', hd', value_eq_of_exchanges (Reference.local_retargetAll hbinding) htag hvalid hquote h hprint hprint'
    (hcore ▸ read_of_ofTag? hd') ?_⟩
  rw [count_retargetAll item hbinding (by decide), List.count_append, List.count_append, hcount, List.count_singleton,
    List.count_singleton]
  simp [hvalid.ne_star.1, hvalid'.ne_star.1]

theorem exists_guard_retargetAll (hitem : LoopExpr.isIdentifier item = true) (hbinding : binding.IsPath)
    (htag : tag.Proper) (hd : ofTag? .guard tag = some d) (hplain : Placeholder.pattern.find? d.value = none)
    (hstar : '*' ∉ d.value) :
    ∃ d', ofTag? .guard (tag.mapBody (Reference.retargetAll item binding)) = some d' ∧
      Guard.parse d'.value = (Guard.parse d.value).retargeted item binding := by
  have hvalid := valid_of_ofTag? hd
  have hpoint : '.' ∉ item := LoopExpr.not_mem_of_isIdentifier hitem (by decide)
  have hquote : d.attr.quoted.quote ∉ Reference.writtenGuard item binding d.value :=
    Reference.not_mem_writtenGuard hpoint hbinding (not_isPathChar_of_isQuote hvalid.quote) hvalid.value
  obtain ⟨d', hd', hvalue⟩ := exists_value_retargetAll hbinding htag hd hquote
    (Reference.exchanges_guard hitem hbinding hvalid hplain hstar)
  exact ⟨d', hd', by rw [hvalue, Guard.parse_writtenGuard hpoint hbinding]⟩

/-- A loop with an expression has its source rebased, if retargeting reads the name of its item. -/
theorem exists_loop_retargetAll (hitem : LoopExpr.isIdentifier item = true) (hbinding : binding.IsPath)
    (hname : LoopExpr.isIdentifier binding = true) (htag : tag.Proper) (hd : ofTag? .loop tag = some d) {e : LoopExpr}
    (he : LoopExpr.parse? d.value = some e) :
    ∃ d', ofTag? .loop (tag.mapBody (Reference.retargetAll item binding)) = some d' ∧
      LoopExpr.parse? d'.value = some (e.retargeted item binding) := by
  have hvalid := valid_of_ofTag? hd
  obtain ⟨hitem', hsource, l, hvalue⟩ := LoopExpr.exists_of_parse? he
  have hretargeted : LoopExpr.isIdentifier (e.retargeted item binding).item = true ∧
      LoopExpr.isPath (e.retargeted item binding).source = true := by
    unfold LoopExpr.retargeted
    split
    · exact ⟨hitem', Reference.isPath_written hitem hname hsource⟩
    · exact ⟨hitem', hsource⟩
  have hquote : d.attr.quoted.quote ∉ l.text (e.retargeted item binding) := by
    have hq := Text.isQuote_iff.1 hvalid.quote
    refine Reference.not_mem_layout hretargeted.1 hretargeted.2 (Text.not_isBlank_of_isQuote hvalid.quote) ?_ ?_
    all_goals rcases hq with hq | hq <;> rw [hq] <;> decide
  obtain ⟨d', hd', hvalue'⟩ := exists_value_retargetAll hbinding htag hd hquote
    (Reference.exchanges_loop hitem hvalid hvalue hitem' hsource)
  exact ⟨d', hd', by rw [hvalue', LoopExpr.parse?_layout l hretargeted.1 hretargeted.2]⟩

end Directive
end HtmlTemplate
