import HtmlTemplate.Placeholder
import HtmlTemplate.Proofs.Comment.Clear
import HtmlTemplate.Proofs.Interpolation
import HtmlTemplate.Proofs.Markup.Span
import HtmlTemplate.Style

/-!
# Finished documents whose comments are markers

In a finished document nothing goes or changes any more, so that it is enough that every comment
opening begins a marker. Interpolation makes such a document of a clear text, embedding stylesheets
keeps it one, and all comments of such a document are markers.
-/

namespace HtmlTemplate

open Text (fill)

namespace Comment

/-- Every comment opening of a text begins a marker. -/
def Guarded : Text → Prop
  | [] => True
  | c :: t =>
    (c = '<' → openingTail <+: t → ∃ m : Comment, m.IsMarker ∧ m.print <+: '<' :: t) ∧ Guarded t

/-- No comment opening reaches across the seam of two texts. -/
def Apart (s t : Text) : Prop :=
  (∀ c, s.getLast? = some c → c ∉ opening) ∨ (∀ c, t.head? = some c → c ∉ openingTail)

theorem Apart.prefix_of_append {c : Char} {s t : Text} (hc : c = '<') (hapart : Apart (c :: s) t)
    (h : openingTail <+: s ++ t) : openingTail <+: s := by
  rcases List.prefix_or_prefix_of_prefix h (List.prefix_append s t) with hs | ⟨x, hx⟩
  · exact hs
  · cases x with
    | nil => rw [← hx, List.append_nil]
    | cons e x =>
      exfalso
      rcases hapart with hlast | hhead
      · have hopen : opening = (c :: s) ++ e :: x := by
          rw [hc, List.cons_append, hx]
          rfl
        obtain ⟨d, hd⟩ := Option.isSome_iff_exists.1 (by simp : ((c :: s).getLast?).isSome)
        refine hlast d hd ?_
        rw [hopen]
        exact List.mem_append_left _ (List.mem_of_getLast? hd)
      · rw [← hx, List.prefix_append_right_inj] at h
        obtain ⟨y, hy⟩ := h
        refine hhead e (by rw [← hy]; rfl) ?_
        rw [← hx]
        simp

theorem Apart.tail {c : Char} {s t : Text} (h : Apart (c :: s) t) : Apart s t := by
  rcases h with hlast | hhead
  · cases s with
    | nil => exact .inl (by simp)
    | cons e s => exact .inl fun d hd => hlast d (by simpa [List.getLast?_cons] using hd)
  · exact .inr hhead

theorem Guarded.append {s t : Text} (hapart : Apart s t) (hs : Guarded s) (ht : Guarded t) :
    Guarded (s ++ t) := by
  induction s with
  | nil => exact ht
  | cons c s ih =>
    refine ⟨fun hc hopen => ?_, ih hapart.tail hs.2⟩
    obtain ⟨m, hm, hpre⟩ := hs.1 hc (hapart.prefix_of_append hc hopen)
    exact ⟨m, hm, hpre.trans (List.prefix_append ('<' :: s) t)⟩

theorem guarded_append_of_not_mem {s t : Text} (hs : '<' ∉ s) (ht : Guarded t) :
    Guarded (s ++ t) := by
  induction s with
  | nil => exact ht
  | cons c s ih =>
    simp only [List.mem_cons, not_or] at hs
    exact ⟨fun hc => absurd hc.symm hs.1, ih hs.2⟩

theorem Guarded.of_append_right {s t : Text} (h : Guarded (s ++ t)) : Guarded t := by
  induction s with
  | nil => exact h
  | cons c s ih => exact ih h.2

theorem Guarded.of_append_left {s t : Text} (hend : s.getLast? = some '>') (h : Guarded (s ++ t)) :
    Guarded s := by
  induction s with
  | nil => trivial
  | cons c s ih =>
    cases s with
    | nil =>
      obtain rfl : c = '>' := by simpa using hend
      exact ⟨fun hc => absurd hc (by decide), trivial⟩
    | cons e s =>
      have hend' : (e :: s).getLast? = some '>' := by simpa [List.getLast?_cons] using hend
      refine ⟨fun hc hopen => ?_, ih hend' h.2⟩
      obtain ⟨m, hm, hpre⟩ := h.1 hc (hopen.trans (List.prefix_append _ t))
      obtain ⟨v, hw, hprint⟩ := hm.exists_window
      rw [hprint] at hpre
      have hpre : v ++ ['>'] <+: (e :: s) ++ t := (List.cons_prefix_cons.1 hpre).2
      refine ⟨m, hm, ?_⟩
      rw [hprint, List.cons_prefix_cons]
      exact ⟨rfl, hw.prefix_of_append (.inl hend') hpre⟩

/-! ## Comments of a finished document -/

theorem Guarded.isMarker {t : Text} (h : Guarded t) {c : Comment}
    (hc : .lexeme c ∈ pattern.pieces t) : c.IsMarker := by
  fun_induction Pattern.pieces pattern t with
  | case1 t a rest hread ih =>
    have ht : t = a.print ++ rest := eq_append_of_read hread
    rcases List.mem_cons.1 hc with he | hc
    · obtain rfl := Piece.lexeme.inj he
      have hguarded := h
      rw [ht] at hguarded
      obtain ⟨m, hm, u, hu⟩ := hguarded.1 rfl ⟨c.body ++ ending ++ rest, by simp [openingTail]⟩
      have hm' : read t = some (m, u) := by
        rw [ht, show c.print ++ rest = m.print ++ u from hu.symm]
        exact hm.readsBack u
      have : some (c, rest) = some (m, u) := hread.symm.trans hm'
      obtain ⟨rfl, -⟩ := Prod.mk.inj (Option.some.inj this)
      exact hm
    · rw [ht] at h
      exact ih h.of_append_right hc
  | case2 => simp at hc
  | case3 d t hread ih =>
    simp only [wfParam] at ih
    exact ih h.2 (by simpa using hc)

/-! ## Stylesheets -/

/-- Whether no `<` between comments is followed by the rest of an opening. -/
def closedPieces : List (Piece Comment) → Bool
  | [] => true
  | .char c :: ps => (c != '<' || !openingTail.isPrefixOf (fill print ps)) && closedPieces ps
  | .lexeme _ :: ps => closedPieces ps

/-- Every comment that a source opens ends in it. -/
def Closed (t : Text) : Prop := closedPieces (pattern.pieces t) = true

instance (t : Text) : Decidable (Closed t) := inferInstanceAs (Decidable (_ = _))

theorem IsMarker.guarded_print {c : Comment} (h : c.IsMarker) : Guarded c.print := by
  obtain ⟨v, hw, hprint⟩ := h.exists_window
  rw [hprint]
  refine ⟨fun _ _ => ⟨c, h, by rw [hprint]⟩, ?_⟩
  rw [← List.append_nil (v ++ ['>'])]
  refine guarded_append_of_not_mem ?_ trivial
  simpa using fun he => (hw.inner '<' he).1 rfl

theorem Closed.guarded_guard {t : Text} (h : Closed t) (table : Table) :
    Guarded (table.guard t).1 := by
  have key : ∀ (ps : List (Piece Comment)) (n : Nat), closedPieces ps = true →
      Guarded (fill (fun a => marker a.2) (numbered n ps)) := by
    intro ps
    induction ps with
    | nil => exact fun _ _ => trivial
    | cons piece ps ih =>
      intro n hps
      cases piece with
      | char c =>
        rw [closedPieces, Bool.and_eq_true] at hps
        refine ⟨fun hc hopen => ?_, ih n hps.2⟩
        have hopen' : openingTail <+: fill (fun a => a.1.print) (numbered n ps) :=
          Text.prefix_fill (fun a _ => ⟨'<', rfl, by decide⟩) hopen
        rw [fill_numbered print n] at hopen'
        simp [hc, List.isPrefixOf_iff_prefix.2 hopen'] at hps
      | lexeme a =>
        have hmarker := (isMarker_marker n).guarded_print
        rw [(isMarker_marker n).print_eq, digits_of_body rfl] at hmarker
        refine hmarker.append (.inl ?_) (ih (n + 1) hps)
        intro e he
        have hlast : (marker n).getLast? = some '>' := by simp [marker, printMarker, ending]
        obtain rfl := Option.some.inj (hlast.symm.trans he)
        decide
  rw [Table.guard, guardPieces_fst]
  exact key _ _ h

/-! ## Interpolation -/

theorem not_prefix_of_departs {α : Type} {f g : α → Text} (hf : ∀ a, (f a).head? = some '\x7b')
    {mark t : Text} {ps : List (Piece α)} (hmark : ∀ m ∈ mark, m ∈ openingTail)
    (h : departs mark t = true) (hpre : t <+: fill f ps) : ¬ mark <+: fill g ps := by
  induction mark generalizing t ps with
  | nil => simp [departs] at h
  | cons m mark ih =>
    cases t with
    | nil => simp [departs] at h
    | cons c t =>
      cases ps with
      | nil => simp at hpre
      | cons piece ps =>
        cases piece with
        | char e =>
          obtain ⟨rfl, hpre'⟩ := List.cons_prefix_cons.1 hpre
          intro hprefix
          obtain ⟨rfl, hprefix'⟩ := List.cons_prefix_cons.1 hprefix
          rw [departs, if_pos rfl] at h
          exact ih (fun m hm => hmark m (List.mem_cons_of_mem _ hm)) h hpre' hprefix'
        | lexeme a =>
          obtain ⟨s, hs⟩ := List.head?_eq_some_iff.1 (hf a)
          rw [Text.fill_hole, hs] at hpre
          obtain ⟨rfl, -⟩ := List.cons_prefix_cons.1 hpre
          have hne : '\x7b' ≠ m := by
            rintro rfl
            exact absurd (hmark '\x7b' (by simp)) (by decide)
          simp [departs, hne, show Text.isBlank '\x7b' = false by decide] at h

theorem Clear.guarded_interpolate {t : Text} (h : Clear t) (s : Scope) :
    Guarded (Placeholder.interpolate s t) := by
  have key : ∀ ps : List (Piece Placeholder), Clear (Text.fill Placeholder.print ps) →
      Guarded (Text.fill (Placeholder.value s) ps) := by
    intro ps
    induction ps with
    | nil => exact fun _ => trivial
    | cons piece ps ih =>
      intro hps
      cases piece with
      | char c =>
        refine ⟨fun hc hopen => ?_, ih hps.2⟩
        obtain ⟨v, d, hw, hpre, hdep | ⟨m, hm, hprint⟩⟩ := hps.1 hc
        · exact absurd hopen (not_prefix_of_departs (fun _ => rfl) (fun m hm => hm) hdep hpre)
        · refine ⟨m, hm, ?_⟩
          rw [hprint, List.cons_prefix_cons]
          refine ⟨rfl, Text.prefix_fill (fun a _ => ⟨'\x7b', rfl, fun hmem => ?_⟩) hpre⟩
          obtain ⟨v', hw', hprint'⟩ := hm.exists_window
          rw [hprint, List.cons.injEq] at hprint'
          rw [hprint'.2] at hmem
          rcases List.mem_append.1 hmem with hv | hlast
          · exact (hw'.inner _ hv).2.2.1 rfl
          · simp at hlast
      | lexeme p =>
        have hplain : '<' ∉ Placeholder.value s p := fun hmem =>
          absurd (Placeholder.not_isDelimiter_of_mem_value hmem) (by decide)
        exact guarded_append_of_not_mem hplain (ih hps.of_append_right)
  rw [← Placeholder.pattern.print_pieces t] at h
  exact key _ h

end Comment

/-! ## Embedded stylesheets -/

namespace Style

open Comment (Guarded Apart)

/-- The end of a text is no part of a comment opening. -/
def Ended (t : Text) : Prop := ∀ c, t.getLast? = some c → c ∉ Comment.opening

theorem Ended.append {s t : Text} (hs : Ended s) (ht : Ended t) : Ended (s ++ t) := by
  intro c hc
  rw [List.getLast?_append, Option.or_eq_some_iff] at hc
  rcases hc with hc | ⟨-, hc⟩
  · exact ht c hc
  · exact hs c hc

theorem ended_of_getLast? {t : Text} {c : Char} (h : t.getLast? = some c) (hc : c ∉ Comment.opening) :
    Ended t := by
  intro d hd
  obtain rfl := Option.some.inj (h.symm.trans hd)
  exact hc

theorem guarded_append {s t : Text} (hend : Ended s) (hs : Guarded s) (ht : Guarded t) :
    Guarded (s ++ t) :=
  Guarded.append (.inl hend) hs ht

theorem ended_block (css : Text) : Ended (block css) := by
  have hlast : (block css).getLast? = some '\n' := by
    unfold block
    rw [List.getLast?_append]
    simp
  exact ended_of_getLast? hlast (by decide)

theorem guarded_element {opening t closing : Text} (hopening : Guarded opening) (hend : Ended opening)
    (ht : Guarded t) (hclosing : Guarded closing) (hhead : closing.head? = some '<') :
    Guarded (opening ++ t ++ closing) := by
  refine Guarded.append (.inr fun c hc => ?_) (guarded_append hend hopening ht) hclosing
  obtain rfl := Option.some.inj (hhead.symm.trans hc)
  decide

theorem guarded_block {css : Text} (h : Guarded css) : Guarded (block css) := by
  refine guarded_element ?_ (ended_of_getLast? (c := '>') (by simp) (by decide)) h ?_ (by simp)
  · simp [Guarded, Comment.openingTail]
  · simp [Guarded, Comment.openingTail]

theorem guarded_blocks {sheets : List Text} (h : ∀ css ∈ sheets, Guarded css) :
    Guarded (blocks sheets) ∧ Ended (blocks sheets) := by
  induction sheets with
  | nil => exact ⟨trivial, by simp [Ended, blocks]⟩
  | cons css sheets ih =>
    obtain ⟨hrest, hend⟩ := ih fun css hcss => h css (List.mem_cons_of_mem _ hcss)
    have hblocks : blocks (css :: sheets) = block css ++ blocks sheets := by simp [blocks]
    rw [hblocks]
    exact ⟨guarded_append (ended_block css) (guarded_block (h css (by simp))) hrest,
      (ended_block css).append hend⟩

theorem getLast?_take_anchorEnd {name t : Text} {n : Nat} (h : anchorEnd? name t = some n) :
    n ≤ t.length ∧ (t.take n).getLast? = some '>' := by
  induction t generalizing n with
  | nil => simp [anchorEnd?] at h
  | cons c t ih =>
    have later : ∀ n, (anchorEnd? name t).map (· + 1) = some n →
        n ≤ (c :: t).length ∧ ((c :: t).take n).getLast? = some '>' := by
      intro n hn
      obtain ⟨k, hk, rfl⟩ := Option.map_eq_some_iff.1 hn
      obtain ⟨hle, hlast⟩ := ih hk
      refine ⟨by simpa using hle, ?_⟩
      rw [List.take_succ_cons, List.getLast?_cons, hlast]
      rfl
    unfold anchorEnd? at h
    split at h
    · next tag rest hread =>
      split at h
      · obtain rfl := Option.some.inj h
        rw [Tag.eq_append_of_read hread]
        simp
      · exact later n h
    · exact later n h

theorem guarded_insertAt {n : Nat} {inserted t : Text} (hlast : (t.take n).getLast? = some '>')
    (hinserted : Guarded inserted) (hend : Ended inserted) (ht : Guarded t) :
    Guarded (insertAt n inserted t) := by
  have hsplit : Guarded (t.take n ++ t.drop n) := by rwa [List.take_append_drop]
  have hfront : Ended (t.take n) := ended_of_getLast? hlast (by decide)
  exact guarded_append (hfront.append hend)
    (guarded_append hfront (hsplit.of_append_left hlast) hinserted) hsplit.of_append_right

theorem take_insertAt {m n : Nat} (inserted t : Text) (hmn : m ≤ n) (hn : n ≤ t.length) :
    (insertAt n inserted t).take m = t.take m := by
  rw [insertAt, List.append_assoc, List.take_append_of_le_length (by simp; omega), List.take_take]
  congr 1
  omega

theorem guarded_headInsertion {html blocks inserted : Text} {n : Nat} (hblocks : Guarded blocks)
    (hend : Ended blocks) (h : headInsertion? html blocks = some (n, inserted)) :
    Guarded inserted ∧ Ended inserted ∧ n ≤ html.length ∧ (html.take n).getLast? = some '>' := by
  unfold headInsertion? at h
  split at h
  · next k hk =>
    obtain ⟨rfl, rfl⟩ := Prod.mk.inj (Option.some.inj h)
    exact ⟨hblocks, hend, getLast?_take_anchorEnd hk⟩
  · obtain ⟨k, hk, he⟩ := Option.map_eq_some_iff.1 h
    obtain ⟨rfl, rfl⟩ := Prod.mk.inj he
    have hlast : ("\n<head>".toList ++ blocks ++ "</head>".toList).getLast? = some '>' := by
      rw [List.getLast?_append]
      simp
    refine ⟨?_, ended_of_getLast? hlast (by decide), getLast?_take_anchorEnd hk⟩
    refine guarded_element ?_ (ended_of_getLast? (c := '>') (by simp) (by decide)) hblocks ?_
      (by simp)
    · simp [Guarded, Comment.openingTail]
    · simp [Guarded, Comment.openingTail]

theorem guarded_embed {html : Text} {sheets : List Text} (hhtml : Guarded html)
    (hsheets : ∀ css ∈ sheets, Guarded css) : Guarded (embed html sheets) := by
  unfold embed
  split
  · exact hhtml
  · obtain ⟨hblocks, hend⟩ := guarded_blocks hsheets
    dsimp only
    have hbody : ∀ {n : Nat} {inserted : Text},
        bodyInsertion? html (blocks sheets) = some (n, inserted) →
        Guarded inserted ∧ Ended inserted ∧ n ≤ html.length ∧ (html.take n).getLast? = some '>' := by
      intro n inserted h
      obtain ⟨k, hk, he⟩ := Option.map_eq_some_iff.1 h
      obtain ⟨rfl, rfl⟩ := Prod.mk.inj he
      exact ⟨hblocks, hend, getLast?_take_anchorEnd hk⟩
    split
    · have hsplit := List.takeWhile_append_dropWhile (p := (· == '\n')) (l := blocks sheets)
      refine guarded_append ?_ (Guarded.of_append_right (hsplit ▸ hblocks)) hhtml
      intro c hc
      refine hend c ?_
      rw [← hsplit, List.getLast?_append, hc, Option.some_or]
    · next h _ =>
      obtain ⟨hins, hinsEnd, -, hlast⟩ := guarded_headInsertion hblocks hend h
      exact guarded_insertAt hlast hins hinsEnd hhtml
    · next _ h =>
      obtain ⟨hins, hinsEnd, -, hlast⟩ := hbody h
      exact guarded_insertAt hlast hins hinsEnd hhtml
    · next h h' =>
      obtain ⟨hins, hinsEnd, hle, hlast⟩ := guarded_headInsertion hblocks hend h
      obtain ⟨hins', hinsEnd', hle', hlast'⟩ := hbody h'
      split
      · next hlt =>
        refine guarded_insertAt ?_ hins hinsEnd (guarded_insertAt hlast' hins' hinsEnd' hhtml)
        rwa [take_insertAt _ _ (Nat.le_of_lt hlt) hle']
      · next hge =>
        refine guarded_insertAt ?_ hins' hinsEnd' (guarded_insertAt hlast hins hinsEnd hhtml)
        rwa [take_insertAt _ _ (Nat.le_of_not_lt hge) hle]

end Style
end HtmlTemplate
