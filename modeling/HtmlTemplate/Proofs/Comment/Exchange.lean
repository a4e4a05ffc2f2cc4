import HtmlTemplate.Proofs.Comment.RoundTrip

/-!
# Other comments in the place of comments

With other comments in the place of its own, a text is guarded as before, and only the table is another
(`Comment.extract_exchange`). What a table does to a text is decided by its length alone: restoring cuts the
text into literal pieces and indices (`Comment.Table.restore_eq_instantiate`), and a computation that does
nothing with a table but guard texts adds the same comments to any table of that length
(`Comment.Table.Extends`).
-/

namespace HtmlTemplate.Comment

open Text (fill)

/-! ## Exchanging -/

/-- A text with other comments in the place of its own, in order. -/
def exchange (comments : List Comment) (t : Text) : Text :=
  fill (fun a => (comments.getD a.2 a.1).print) (numbered 0 (pattern.pieces t))

theorem getElem?_lexemes {t : Text} {a : Comment × Nat} (h : .lexeme a ∈ numbered 0 (pattern.pieces t)) :
    (pattern.lexemes t)[a.2]? = some a.1 :=
  @getElem?_of_mem_numbered [] _ _ h

theorem readsBack_of_not_infix {c : Comment} (h : ¬ ending <:+: c.body) : c.ReadsBack := by
  refine readsBack_iff.2 fun hin => h ?_
  obtain ⟨u, v, huv⟩ := hin
  rcases List.eq_nil_or_concat v with rfl | ⟨v, e, rfl⟩
  · have := congrArg List.getLast? huv
    simp [ending] at this
  rcases List.eq_nil_or_concat v with rfl | ⟨v, d, rfl⟩
  · have := congrArg (fun t : Text => t.dropLast.getLast?) huv
    simp [ending] at this
  · have huv' : u ++ ending ++ v ++ [d, e] = c.body ++ ['-', '-'] := by simpa using huv
    exact ⟨u, v, (List.append_inj' huv' rfl).1⟩

/-- Guarding finds exchanged comments in the places of those of the text. -/
theorem extract_exchange {comments : List Comment} {t : Text}
    (hlength : comments.length = (pattern.lexemes t).length) (hbodies : ∀ c ∈ comments, ¬ ending <:+: c.body) :
    extract (exchange comments t) = ((extract t).1, comments) := by
  have hmem : ∀ a, .lexeme a ∈ numbered 0 (pattern.pieces t) → comments.getD a.2 a.1 ∈ comments := by
    intro a ha
    have hlt : a.2 < comments.length := hlength ▸ (List.getElem?_eq_some_iff.1 (getElem?_lexemes ha)).1
    rw [List.getD_eq_getElem _ _ hlt]
    exact List.getElem_mem hlt
  have hpieces : pattern.pieces (exchange comments t) = _ := (finds_numbered 0 t).exchange fun a ha =>
    readsBack_of_not_infix (hbodies _ (hmem a ha))
  refine Prod.ext ?_ ?_
  · rw [extract_fst, extract_fst, hpieces, numbered_map, ← numbered_map Prod.fst 0 (numbered 0 _),
      map_fst_numbered]
  · rw [extract, Table.guard, Table.guardPieces_snd, hpieces, List.nil_append, List.filterMap_map]
    have hlexemes : (numbered 0 (pattern.pieces t)).filterMap
          (Piece.lexeme? ∘ Piece.map fun a : Comment × Nat => comments.getD a.2 a.1) =
        (pattern.lexemes t).zipIdx.map fun a => comments.getD a.2 a.1 := by
      rw [Pattern.lexemes, ← lexemes_numbered, List.map_filterMap]
      congr 1
      funext piece
      cases piece <;> rfl
    rw [hlexemes]
    refine List.ext_getElem (by simp [hlength]) fun i hi hi' => ?_
    simp [List.getElem?_eq_getElem hi']

namespace Table

/-! ## Restoring by indices -/

/-- What stands for a marker when a table of `n` comments is restored: the index of a comment, or the marker
itself, character by character. -/
def slot (n : Nat) (digits : Text) : List (Piece Nat) :=
  match Text.ofNumeral? digits with
  | some index => if index < n then [.lexeme index] else (printMarker digits).map .char
  | none => (printMarker digits).map .char

/-- A text as literal characters and indices in a table of `n` comments. -/
def slots (n : Nat) (t : Text) : List (Piece Nat) :=
  (markerPattern.pieces t).flatMap fun
    | .char c => [.char c]
    | .lexeme digits => slot n digits

/-- Literal characters and the comments with these indices. -/
def instantiate (table : Table) (parts : List (Piece Nat)) : Text :=
  fill (fun index => (table[index]?.map print).getD []) parts

theorem lt_of_mem_slots {n index : Nat} {t : Text} (h : .lexeme index ∈ slots n t) : index < n := by
  obtain ⟨piece, -, hpiece⟩ := List.mem_flatMap.1 h
  cases piece with
  | char c => simp at hpiece
  | lexeme digits =>
    simp only [slot] at hpiece
    split at hpiece
    · split at hpiece
      · next hlt =>
        obtain rfl := Piece.lexeme.inj (List.mem_singleton.1 hpiece)
        exact hlt
      · simp at hpiece
    · simp at hpiece

theorem instantiate_slot (table : Table) (digits : Text) :
    table.instantiate (slot table.length digits) = table.restoreMarker digits := by
  unfold slot restoreMarker instantiate
  cases Text.ofNumeral? digits with
  | none => simp
  | some index =>
    by_cases hlt : index < table.length
    · simp [hlt]
    · simp [hlt]

/-- Restoring a text is putting comments at the places that the length of the table decides. -/
theorem restore_eq_instantiate (table : Table) (t : Text) :
    table.restore t = table.instantiate (slots table.length t) := by
  rw [restore, Pattern.replace, slots]
  induction markerPattern.pieces t with
  | nil => rfl
  | cons piece ps ih =>
    rw [List.flatMap_cons, List.flatMap_cons, instantiate, Text.fill_append, ← instantiate, ← instantiate, ← ih]
    cases piece with
    | char c => rfl
    | lexeme digits => rw [instantiate_slot, Piece.print]

/-! ## Computations that extend a table -/

variable {α β ε : Type}

/-- A computation that depends on its table by the length only: with every table of length `n` it fails alike,
or gives the same result and adds the same comments. -/
def Extends (n : Nat) (run : Table → Except ε (α × Table)) : Prop :=
  ∃ outcome : Except ε (α × Table), ∀ table : Table, table.length = n →
    run table = outcome.map fun out => (out.1, table ++ out.2)

namespace Extends

variable {n : Nat} {run : Table → Except ε (α × Table)} {whole : Table → Except ε (β × Table)}

theorem of_error {e : ε} (h : ∀ table, run table = .error e) : Extends n run :=
  ⟨.error e, fun table _ => h table⟩

theorem of_ok {a : α} (h : ∀ table, run table = .ok (a, table)) : Extends n run :=
  ⟨.ok (a, []), fun table _ => by simp [h, Except.map]⟩

theorem bind (hrun : Extends n run) (next : α → Table → Except ε (β × Table))
    (hnext : ∀ a m, Extends m (next a))
    (hwhole : ∀ table, whole table = (run table).bind fun out => next out.1 out.2) : Extends n whole := by
  obtain ⟨outcome, hrun⟩ := hrun
  rcases outcome with e | ⟨a, added⟩
  · exact ⟨.error e, fun table hn => by rw [hwhole, hrun table hn]; rfl⟩
  · obtain ⟨outcome, hnext⟩ := hnext a (n + added.length)
    refine ⟨outcome.map fun out => (out.1, added ++ out.2), fun table hn => ?_⟩
    have hn' : (table ++ added).length = n + added.length := by rw [List.length_append, hn]
    rw [hwhole, hrun table hn, Except.map, Except.bind, hnext _ hn']
    cases outcome <;> simp [Except.map]

theorem map (hrun : Extends n run) (f : α → β)
    (hwhole : ∀ table, whole table = (run table).map fun out => (f out.1, out.2)) : Extends n whole := by
  refine hrun.bind (fun a table => .ok (f a, table)) (fun a m => of_ok fun _ => rfl) fun table => ?_
  rw [hwhole]
  cases run table <;> rfl

theorem guard (n : Nat) (t : Text) : Extends (ε := ε) n fun table => .ok (table.guard t) := by
  refine ⟨.ok (fill (fun a => marker a.2) (numbered n (pattern.pieces t)), pattern.lexemes t), fun table hn => ?_⟩
  simp only [Table.guard, Except.map, ← hn, ← guardPieces_fst, Pattern.lexemes, ← guardPieces_snd]

theorem guardAll (n : Nat) (texts : List Text) : Extends (ε := ε) n fun table => .ok (table.guardAll texts) := by
  induction texts generalizing n with
  | nil => exact of_ok fun _ => rfl
  | cons t texts ih =>
    exact (guard n t).bind (fun guarded table => .ok (guarded :: (table.guardAll texts).1, (table.guardAll texts).2))
      (fun guarded m => (ih m).map (guarded :: ·) fun _ => rfl) fun _ => rfl

end Extends
end Table
end HtmlTemplate.Comment
