import HtmlTemplate.Engine
import HtmlTemplate.Library
import HtmlTemplate.Proofs.Comment.Final
import HtmlTemplate.Proofs.Comment.Passes
import HtmlTemplate.Proofs.Comment.Restore

/-!
# Validity of rendered documents

A document is checked while markers stand for its comments, and the comments are put back after that.
So what is returned is valid again only as far as the comments of the assembled document are the ones
that were guarded. They are if in no source a `<` outside of comments can grow into a comment opening
(`Engine.SourcesSettled`). Without that, what sources leave open can swallow markup of others
(`Engine.renderSource_split_opening`).
-/

namespace HtmlTemplate

open Comment (ReadsBack Settled Closed Clear Guarded)

/-! ## Tables of guarded comments -/

namespace Comment.Table

/-- Every comment of a table is read as it is printed. -/
def ReadBack (table : Table) : Prop := ∀ c ∈ table, c.ReadsBack

theorem readBack_guard {table : Table} (h : table.ReadBack) (t : Text) : (table.guard t).2.ReadBack := by
  intro c hc
  rw [guard, guardPieces_snd, List.mem_append, List.mem_filterMap] at hc
  rcases hc with hc | ⟨piece, hpiece, he⟩
  · exact h c hc
  · cases piece with
    | char => simp [Piece.lexeme?] at he
    | lexeme a =>
      obtain rfl := Option.some.inj he
      exact readsBack_of_mem_pieces hpiece

theorem readBack_guardAll {table : Table} (h : table.ReadBack) (texts : List Text) :
    (table.guardAll texts).2.ReadBack := by
  induction texts generalizing table with
  | nil => exact h
  | cons t texts ih => exact ih (readBack_guard h t)

theorem guarded_guardAll {texts : List Text} (h : ∀ t ∈ texts, Closed t) (table : Table) :
    ∀ t ∈ (table.guardAll texts).1, Guarded t := by
  induction texts generalizing table with
  | nil => simp [guardAll]
  | cons t texts ih =>
    intro u hu
    rcases List.mem_cons.1 hu with rfl | hu
    · exact (h t (by simp)).guarded_guard table
    · exact ih (fun v hv => h v (List.mem_cons_of_mem _ hv)) _ u hu

end Comment.Table

theorem IncludeMarker.readBack_resolvePieces {load : Text → Except LoadFailure Text}
    {ps : List (Piece IncludeMarker)} {table table' : Comment.Table} {t : Text}
    (htable : table.ReadBack) (h : resolvePieces load ps table = .ok (t, table')) :
    table'.ReadBack := by
  induction ps generalizing table t with
  | nil =>
    obtain ⟨-, rfl⟩ := Prod.mk.inj (Except.ok.inj h)
    exact htable
  | cons piece ps ih =>
    cases piece with
    | char c =>
      simp only [resolvePieces] at h
      split at h
      · simp at h
      · next u _ hrest =>
        obtain ⟨rfl, rfl⟩ := Prod.mk.inj (Except.ok.inj h)
        exact ih htable hrest
    | lexeme m =>
      simp only [resolvePieces] at h
      split at h
      · simp at h
      · next content hload =>
        split at h
        · simp at h
        · next u _ hrest =>
          obtain ⟨rfl, rfl⟩ := Prod.mk.inj (Except.ok.inj h)
          exact ih (Comment.Table.readBack_guard htable content) hrest

/-! ## Assembled documents -/

namespace Engine

/-- The document of a source before it is checked and its comments are put back, with their table. -/
def assemble (engine : Engine) (source : Source) (data : Value) (sheets : List Stylesheet) :
    Except Error (Text × Comment.Table) :=
  match engine.markup source with
  | .error e => .error e
  | .ok markup =>
    match Markup.check (Comment.extract markup).1 with
    | .error reason => .error (.invalidBefore reason)
    | .ok () =>
      match engine.fill data (Comment.extract markup).1 (Comment.extract markup).2 with
      | .error e => .error e
      | .ok (html, table) => engine.style sheets html table

theorem renderSource_eq (engine : Engine) (source : Source) (data : Value)
    (sheets : List Stylesheet) :
    engine.renderSource source data sheets =
      match engine.assemble source data sheets with
      | .error e => .error e
      | .ok (html, table) =>
        match Markup.check html with
        | .error reason => .error (.invalidAfter reason)
        | .ok () => .ok (table.restore html) := by
  unfold renderSource assemble renderMarkup
  cases engine.markup source with
  | error e => rfl
  | ok markup =>
    dsimp only
    cases Markup.check (Comment.extract markup).1 with
    | error reason => rfl
    | ok =>
      dsimp only
      cases engine.fill data (Comment.extract markup).1 (Comment.extract markup).2 with
      | error e => rfl
      | ok filled => rfl

theorem readBack_fill {engine : Engine} {data : Value} {t html : Text} {table table' : Comment.Table}
    (htable : table.ReadBack) (h : engine.fill data t table = .ok (html, table')) :
    table'.ReadBack := by
  unfold fill at h
  split at h
  · simp at h
  · next hresolve =>
    split at h
    · simp at h
    · split at h
      · simp at h
      · obtain ⟨-, rfl⟩ := Prod.mk.inj (Except.ok.inj h)
        exact IncludeMarker.readBack_resolvePieces htable hresolve

theorem readBack_assemble {engine : Engine} {source : Source} {data : Value}
    {sheets : List Stylesheet} {html : Text} {table : Comment.Table}
    (h : engine.assemble source data sheets = .ok (html, table)) : table.ReadBack := by
  unfold assemble at h
  split at h
  · simp at h
  · split at h
    · simp at h
    · split at h
      · simp at h
      · next hfill =>
        unfold style at h
        split at h
        · simp at h
        · obtain ⟨-, rfl⟩ := Prod.mk.inj (Except.ok.inj h)
          refine Comment.Table.readBack_guardAll (readBack_fill ?_ hfill) _
          exact Comment.Table.readBack_guard (by simp [Comment.Table.ReadBack]) _

/-! ## Sources -/

/-- In no source of a rendering can a `<` outside of comments grow into a comment opening: not in the
template, not in what it includes, and not in the stylesheets. -/
structure SourcesSettled (engine : Engine) (source : Source) (sheets : List Stylesheet) : Prop where
  template : ∀ markup, engine.markup source = .ok markup → Settled markup
  includes : ∀ markup, engine.markup source = .ok markup →
    ∀ m ∈ IncludeMarker.pattern.lexemes (Comment.extract markup).1,
      ∀ content, engine.load m.source = .ok content → Settled content
  stylesheets : ∀ texts, Stylesheet.loadAll engine.load (engine.stylesheets ++ sheets) = .ok texts →
    ∀ css ∈ texts, Closed css

theorem guarded_fill {engine : Engine} {data : Value} {t html : Text} {table table' : Comment.Table}
    (ht : Clear t)
    (hincludes : ∀ m ∈ IncludeMarker.pattern.lexemes t,
      ∀ content, engine.load m.source = .ok content → Settled content)
    (h : engine.fill data t table = .ok (html, table')) : Guarded html := by
  unfold fill at h
  split at h
  · simp at h
  · next u _ hresolve =>
    have hu : Clear u := IncludeMarker.clear_resolve ht hincludes hresolve
    split at h
    · simp at h
    · next v scope hexpand =>
      have hv : Clear v := Directive.clear_expandRounds hu hexpand
      split at h
      · simp at h
      · next w hselect =>
        obtain ⟨rfl, rfl⟩ := Prod.mk.inj (Except.ok.inj h)
        exact (Directive.clear_select hv hselect).guarded_interpolate scope

theorem guarded_assemble {engine : Engine} {source : Source} {data : Value}
    {sheets : List Stylesheet} {html : Text} {table : Comment.Table}
    (hsettled : engine.SourcesSettled source sheets)
    (h : engine.assemble source data sheets = .ok (html, table)) : Guarded html := by
  unfold assemble at h
  split at h
  · simp at h
  · next markup hmarkup =>
    split at h
    · simp at h
    · split at h
      · simp at h
      · next filled _ hfill =>
        have hclear : Clear (Comment.extract markup).1 :=
          (hsettled.template markup hmarkup).clear_guard []
        have hfilled : Guarded filled :=
          guarded_fill hclear (hsettled.includes markup hmarkup) hfill
        unfold style at h
        split at h
        · simp at h
        · next texts hload =>
          obtain ⟨rfl, -⟩ := Prod.mk.inj (Except.ok.inj h)
          exact Style.guarded_embed hfilled
            (Comment.Table.guarded_guardAll (hsettled.stylesheets texts hload) _)

/-- What a rendering returns is the assembled document, which passed the check, with its comments put
back. Guarding it afresh gives what guarding the assembled document afresh gives, unless a comment is
abrupt, so that it is valid exactly when the assembled document is valid without its own comments. It
is valid when these are the markers only, and they are when the sources are settled. -/
theorem check_extract_renderSource {engine : Engine} {source : Source} {data : Value}
    {sheets : List Stylesheet} {out : Text} (h : engine.renderSource source data sheets = .ok out) :
    ∃ html table, engine.assemble source data sheets = .ok (html, table) ∧
      Markup.check html = .ok () ∧ out = table.restore html ∧
      ((∀ c ∈ table, ¬ c.IsAbrupt) →
        Markup.check (Comment.extract out).1 = Markup.check (Comment.extract html).1) ∧
      ((∀ c ∈ Comment.pattern.lexemes html, c.IsMarker) →
        Markup.check (Comment.extract out).1 = .ok ()) ∧
      (engine.SourcesSettled source sheets → ∀ c ∈ Comment.pattern.lexemes html, c.IsMarker) := by
  rw [renderSource_eq] at h
  split at h
  · simp at h
  · next html table hassemble =>
    split at h
    · simp at h
    · next hcheck =>
      obtain rfl := Except.ok.inj h
      have hmem : ∀ c, .lexeme c ∈ Comment.pattern.pieces html →
          c ∈ Comment.pattern.lexemes html := fun c hc => List.mem_filterMap.2 ⟨_, hc, rfl⟩
      have htable := readBack_assemble hassemble
      refine ⟨html, table, hassemble, hcheck, rfl, fun habrupt => ?_, fun hmarkers => ?_,
        fun hsettled c hc => ?_⟩
      · rw [Comment.extract_restore fun c hc =>
          (Comment.readsBack_of_mem_pieces hc).kept htable habrupt]
      · rw [Comment.extract_restore fun c hc => (hmarkers c (hmem c hc)).kept htable,
          Comment.check_extract fun c hc => hmarkers c (hmem c hc)]
        exact hcheck
      · obtain ⟨piece, hpiece, he⟩ := List.mem_filterMap.1 hc
        cases piece with
        | char => simp [Piece.lexeme?] at he
        | lexeme a =>
          obtain rfl := Option.some.inj he
          exact (guarded_assemble hsettled hassemble).isMarker hpiece

/-- A comparison in a script and a comment around markup, with settled sources. -/
theorem check_extract_renderSource_script :
    let engine : Engine := ⟨(Library.memory []).load, Source.defaultSuffix, []⟩
    let source := Source.inline "<p><!-- <b> --><i *if='x'>{{x}} < 2</i></p>".toList
    let data := Value.object [(['x'], .string ['1'])]
    let out := "<p><!-- <b> --><i>1 < 2</i></p>".toList
    engine.renderSource source data [] = .ok out ∧ engine.SourcesSettled source [] ∧
      Markup.check (Comment.extract out).1 = .ok () := by
  intro engine source data out
  have hrender : engine.renderSource source data [] = .ok out := by decide +kernel
  have hsettled : engine.SourcesSettled source [] := by
    constructor
    · intro markup hmarkup
      obtain rfl := Except.ok.inj hmarkup
      decide +kernel
    · intro markup hmarkup m hm
      obtain rfl := Except.ok.inj hmarkup
      have hnone : IncludeMarker.pattern.lexemes
          (Comment.extract "<p><!-- <b> --><i *if='x'>{{x}} < 2</i></p>".toList).1 = [] := by
        decide +kernel
      rw [hnone] at hm
      simp at hm
    · intro texts htexts
      obtain rfl := Except.ok.inj htexts
      simp
  obtain ⟨html, table, -, -, -, -, hvalid, hmarkers⟩ := check_extract_renderSource hrender
  exact ⟨hrender, hsettled, hvalid (hmarkers hsettled)⟩

/-- The two halves of a comment opening meet when the placeholder between them has no value. The
comment that begins there swallows an opening tag, but not the closing tag that goes with it. -/
theorem renderSource_split_opening :
    let engine : Engine := ⟨(Library.memory []).load, Source.defaultSuffix, []⟩
    let out := "<div><!--<b>--></b></div>".toList
    engine.renderSource (.inline "<div><!{{x}}--<b>--></b></div>".toList) (.object []) [] = .ok out ∧
      Markup.check (Comment.extract out).1 =
        .error (.mismatchedClose "div".toList "b".toList) := by
  decide +kernel

end Engine
end HtmlTemplate
