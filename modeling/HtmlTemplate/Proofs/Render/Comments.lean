import HtmlTemplate.Proofs.Comment.Exchange
import HtmlTemplate.Proofs.Render.Validity

/-!
# Comments do not influence a rendering

No pass of a rendering looks into the table of comments: what it does is decided by the length of the table
(`Engine.extends_fill`, `Engine.extends_style`). So a template with other comments in the place of its own
fails with the same error, or gives the same document with these comments where its own would be
(`Engine.renderSource_exchange`).
-/

namespace HtmlTemplate

open Comment (Table exchange)
open Comment.Table (Extends)

theorem IncludeMarker.extends_resolvePieces (load : Text → Except LoadFailure Text)
    (ps : List (Piece IncludeMarker)) (n : Nat) : Extends n (resolvePieces load ps) := by
  induction ps generalizing n with
  | nil => exact .of_ok fun _ => rfl
  | cons piece ps ih =>
    cases piece with
    | char c =>
      refine (ih n).map (c :: ·) fun table => ?_
      rw [resolvePieces]
      cases resolvePieces load ps table <;> rfl
    | lexeme marker =>
      cases hload : load marker.source with
      | error failure => exact .of_error fun table => by rw [resolvePieces, hload]
      | ok content =>
        refine (Extends.guard n content).bind
          (fun guarded table => (resolvePieces load ps table).map fun out => (guarded ++ out.1, out.2))
          (fun guarded m => (ih m).map (guarded ++ ·) fun _ => rfl) fun table => ?_
        rw [resolvePieces, hload]
        simp only [Except.bind]
        cases resolvePieces load ps (table.guard content).2 <;> rfl

namespace Engine

/-- What a rendering makes of a text after its includes have been resolved. -/
def complete (data : Value) (t : Text) : Except Error Text :=
  match Directive.expand t data with
  | (.error e, _) => .error e
  | (.ok t, scope) => (Directive.select scope t).map (Placeholder.interpolate scope)

theorem extends_fill (engine : Engine) (data : Value) (t : Text) (n : Nat) :
    Extends n (engine.fill data t) := by
  refine (IncludeMarker.extends_resolvePieces engine.load (IncludeMarker.pattern.pieces t) n).bind
    (fun t table => (complete data t).map (·, table)) (fun t m => ?_) fun table => ?_
  · cases hcomplete : complete data t with
    | error e => exact .of_error fun _ => rfl
    | ok html => exact .of_ok fun _ => rfl
  · rw [fill, IncludeMarker.resolve]
    rcases IncludeMarker.resolvePieces engine.load (IncludeMarker.pattern.pieces t) table with
      e | ⟨t, table⟩
    · rfl
    · simp only [Except.bind, complete]
      rcases Directive.expand t data with ⟨e | t, scope⟩
      · rfl
      · cases hselect : Directive.select scope t <;> simp [hselect, Except.map]

theorem extends_style (engine : Engine) (sheets : List Stylesheet) (html : Text) (n : Nat) :
    Extends n (engine.style sheets html) := by
  cases hload : Stylesheet.loadAll engine.load (engine.stylesheets ++ sheets) with
  | error e => exact .of_error fun table => by rw [style, hload]
  | ok css => exact (Extends.guardAll n css).map (Style.embed html) fun table => by rw [style, hload]; rfl

theorem exists_assembled (engine : Engine) (guarded : Text) (data : Value) (sheets : List Stylesheet) (n : Nat) :
    ∃ assembled : Except Error (Text × Table), ∀ source markup, engine.markup source = .ok markup →
      (Comment.extract markup).1 = guarded → (Comment.extract markup).2.length = n →
      engine.assemble source data sheets =
        assembled.map fun out => (out.1, (Comment.extract markup).2 ++ out.2) := by
  cases hcheck : Markup.check guarded with
  | error reason =>
    refine ⟨.error (.invalidBefore reason), fun source markup hmarkup hguarded _ => ?_⟩
    rw [assemble, hmarkup]
    simp only [hguarded, hcheck]
    rfl
  | ok =>
    obtain ⟨assembled, hassembled⟩ := (extends_fill engine data guarded n).bind (engine.style sheets)
      (extends_style engine sheets) fun _ => rfl
    refine ⟨assembled, fun source markup hmarkup hguarded hn => ?_⟩
    rw [← hassembled _ hn, assemble, hmarkup]
    simp only [hguarded, hcheck]
    cases engine.fill data guarded (Comment.extract markup).2 <;> rfl

/-- An assembled document, checked, as literal characters and indices in a table of `n` comments. -/
def finish (n : Nat) (html : Text) : Except Error (List (Piece Nat)) :=
  match Markup.check html with
  | .error reason => .error (.invalidAfter reason)
  | .ok () => .ok (Table.slots n html)

theorem lt_of_finish {n index : Nat} {html : Text} {parts : List (Piece Nat)} (h : finish n html = .ok parts)
    (hindex : .lexeme index ∈ parts) : index < n := by
  unfold finish at h
  split at h
  · simp at h
  · obtain rfl := Except.ok.inj h
    exact Table.lt_of_mem_slots hindex

theorem renderSource_of_assemble {engine : Engine} {source : Source} {data : Value} {sheets : List Stylesheet}
    {html : Text} {table : Table} (h : engine.assemble source data sheets = .ok (html, table)) :
    engine.renderSource source data sheets = (finish table.length html).map table.instantiate := by
  rw [renderSource_eq, h]
  simp only [finish]
  cases Markup.check html with
  | error reason => rfl
  | ok => exact congrArg Except.ok (Table.restore_eq_instantiate table html)

/-- Templates that are guarded alike are rendered alike, up to the comments that come to stand at their indices. -/
theorem exists_outcome (engine : Engine) (guarded : Text) (data : Value) (sheets : List Stylesheet) (n : Nat) :
    ∃ outcome : Except Error (List (Piece Nat) × Table),
      (∀ parts later, outcome = .ok (parts, later) →
        ∀ index, .lexeme index ∈ parts → index < n + later.length) ∧
      ∀ source markup, engine.markup source = .ok markup → (Comment.extract markup).1 = guarded →
        (Comment.extract markup).2.length = n →
        engine.renderSource source data sheets =
          outcome.map fun out => ((Comment.extract markup).2 ++ out.2).instantiate out.1 := by
  obtain ⟨assembled, hassembled⟩ := exists_assembled engine guarded data sheets n
  rcases assembled with e | ⟨html, later⟩
  · refine ⟨.error e, by simp, fun source markup hmarkup hguarded hn => ?_⟩
    rw [renderSource_eq, hassembled source markup hmarkup hguarded hn]
    rfl
  · refine ⟨(finish (n + later.length) html).map fun parts => (parts, later), fun parts later' hout => ?_,
      fun source markup hmarkup hguarded hn => ?_⟩
    · cases hfinish : finish (n + later.length) html with
      | error e => simp [hfinish, Except.map] at hout
      | ok parts' =>
        rw [hfinish] at hout
        obtain ⟨rfl, rfl⟩ := Prod.mk.inj (Except.ok.inj hout)
        exact fun index => lt_of_finish hfinish
    · rw [renderSource_of_assemble (hassembled source markup hmarkup hguarded hn), List.length_append, hn]
      cases finish (n + later.length) html <;> rfl

/-- Rendering a template gives an error or one sequence of literal characters and indices, in which its comments
and those of includes and stylesheets stand at their indices. With any other comments in the place of those of
the template, it gives the same error or the same sequence with these comments at their indices. -/
theorem renderSource_exchange {engine : Engine} {source : Source} {t : Text} (ht : engine.markup source = .ok t)
    (data : Value) (sheets : List Stylesheet) :
    ∃ outcome : Except Error (List (Piece Nat) × Table),
      (∀ parts later, outcome = .ok (parts, later) →
        ∀ index, .lexeme index ∈ parts → index < (Comment.pattern.lexemes t).length + later.length) ∧
      engine.renderSource source data sheets =
        (outcome.map fun out => Table.instantiate (Comment.pattern.lexemes t ++ out.2) out.1) ∧
      ∀ (source' : Source) (comments : List Comment),
        comments.length = (Comment.pattern.lexemes t).length →
        (∀ c ∈ comments, ¬ Comment.ending <:+: c.body) →
        engine.markup source' = .ok (exchange comments t) →
        engine.renderSource source' data sheets =
          outcome.map fun out => Table.instantiate (comments ++ out.2) out.1 := by
  have hlexemes : (Comment.extract t).2 = Comment.pattern.lexemes t := by
    rw [Comment.extract, Table.guard, Table.guardPieces_snd]
    rfl
  obtain ⟨outcome, hindices, houtcome⟩ :=
    exists_outcome engine (Comment.extract t).1 data sheets (Comment.pattern.lexemes t).length
  refine ⟨outcome, hindices, ?_, fun source' comments hlength hbodies hsource' => ?_⟩
  · have := houtcome source t ht rfl (congrArg List.length hlexemes)
    rwa [hlexemes] at this
  · have hexchange := Comment.extract_exchange hlength hbodies
    have := houtcome source' _ hsource' (by rw [hexchange]) (by rw [hexchange, hlength])
    rwa [hexchange] at this

/-- The comment of the template stands in a loop, behind an include with a comment of its own. Another comment that
looks like markup, a placeholder and the marker of the other takes its place in each copy. -/
theorem renderSource_exchange_copies :
    let library := Library.memory [("i.html".toList, "<i><!--own--></i>".toList)]
    let engine : Engine := ⟨library.load, Source.defaultSuffix, []⟩
    let t := "<p><include src='i.html'/><b *for='x of xs'><!--a-->{{x}}</b></p>".toList
    let other : Comment := ⟨"<b>{{x}}<!--templ-comment:1".toList⟩
    let data := Value.object [("xs".toList, .array [.string ['1'], .string ['2']])]
    let t' := "<p><include src='i.html'/><b *for='x of xs'><!--<b>{{x}}<!--templ-comment:1-->{{x}}</b></p>".toList
    let out := "<p><i><!--own--></i><b><!--a-->1</b><b><!--a-->2</b></p>".toList
    let out' := ("<p><i><!--own--></i><b><!--<b>{{x}}<!--templ-comment:1-->1</b>" ++
      "<b><!--<b>{{x}}<!--templ-comment:1-->2</b></p>").toList
    exchange [other] t = t' ∧ engine.renderSource (.inline t) data [] = .ok out ∧
      engine.renderSource (.inline t') data [] = .ok out' ∧
        ∃ parts later, out = Table.instantiate (⟨['a']⟩ :: later) parts ∧
          out' = Table.instantiate (other :: later) parts := by
  intro library engine t other data t' out out'
  have ht' : exchange [other] t = t' := by decide +kernel
  have hout : engine.renderSource (.inline t) data [] = .ok out := by decide +kernel
  have hout' : engine.renderSource (.inline t') data [] = .ok out' := by decide +kernel
  have hlexemes : Comment.pattern.lexemes t = [⟨['a']⟩] := by decide +kernel
  obtain ⟨outcome, -, hown, hother⟩ := @renderSource_exchange engine (.inline t) t rfl data []
  rw [hlexemes] at hown hother
  have hother := hother (.inline t') [other] rfl (by decide +kernel) (congrArg Except.ok ht'.symm)
  rcases outcome with e | ⟨parts, later⟩
  · rw [hown] at hout
    simp [Except.map] at hout
  · exact ⟨ht', hout, hout', parts, later, Except.ok.inj (hout.symm.trans hown),
      Except.ok.inj (hout'.symm.trans hother)⟩

end Engine
end HtmlTemplate
