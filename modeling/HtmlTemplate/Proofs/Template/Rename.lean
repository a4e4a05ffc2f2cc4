import HtmlTemplate.Proofs.Template.Scan

/-!
# Renamed items

A loop item may be renamed in the element of its loop: paths that begin with it get the new name, except
where an inner loop declares the same item. If the new name stands for what the item stood for, the
template stands for what it stood for (`Template.eval_rename`).
-/

namespace HtmlTemplate

/-! ## Paths of a template -/

def Bit.paths : Bit → List Path
  | char _ => []
  | hole p => [p]

def Clause.paths : Clause → List Path
  | loop _ source => [source]
  | guard _ p => [p]

def Chunk.paths : Chunk → List Path
  | space _ => []
  | plain _ _ _ value => value.flatMap Bit.paths
  | directive _ _ clause => clause.paths

def Opening.paths (o : Opening) : List Path := o.chunks.flatMap Chunk.paths

namespace Template

def paths : Template → List Path
  | nil => []
  | bit b rest => b.paths ++ rest.paths
  | leaf o rest => o.paths ++ rest.paths
  | element o inside rest => o.paths ++ (inside.paths ++ rest.paths)

def items : Template → List Text
  | nil => []
  | bit _ rest => rest.items
  | leaf o rest => (o.loop?.map Prod.fst).toList ++ rest.items
  | element o inside rest => (o.loop?.map Prod.fst).toList ++ (inside.items ++ rest.items)

@[simp] theorem paths_append (S T : Template) : (S.append T).paths = S.paths ++ T.paths := by
  induction S with
  | nil => rfl
  | bit b rest ih => simp [append, paths, ih]
  | leaf o rest ih => simp [append, paths, ih]
  | element o inside rest _ ih => simp [append, paths, ih]

@[simp] theorem items_append (S T : Template) : (S.append T).items = S.items ++ T.items := by
  induction S with
  | nil => rfl
  | bit b rest ih => simp [append, items, ih]
  | leaf o rest ih => simp [append, items, ih]
  | element o inside rest _ ih => simp [append, items, ih]

end Template

theorem Opening.source_mem_paths {o : Opening} {item : Text} {source : Path}
    (h : o.loop? = some (item, source)) : source ∈ o.paths := by
  obtain ⟨blank, quote, hk⟩ := mem_chunks_of_loop? h
  exact List.mem_flatMap.2 ⟨_, hk, List.mem_singleton_self source⟩

theorem Chunk.isValid_of_mem_paths {k : Chunk} (h : k.isValid = true) {p : Path} (hp : p ∈ k.paths) :
    p.isValid = true := by
  rcases k with _ | ⟨_, _, _, value⟩ | ⟨_, _, _ | _⟩
  · simp [paths] at hp
  · obtain ⟨b, hb, hp⟩ := List.mem_flatMap.1 hp
    have hvalid := (valid_plain h).2.2.2.2 b hb
    cases b with
    | char c => simp [Bit.paths] at hp
    | hole q => exact (List.mem_singleton.1 hp) ▸ hvalid
  · exact (List.mem_singleton.1 hp) ▸ (Clause.valid_loop (valid_directive h).2.2).2
  · exact (List.mem_singleton.1 hp) ▸ (valid_directive h).2.2

theorem Opening.isValid_of_mem_paths {o : Opening} (h : o.isValid = true) {p : Path} (hp : p ∈ o.paths) :
    p.isValid = true := by
  obtain ⟨k, hk, hp⟩ := List.mem_flatMap.1 hp
  exact Chunk.isValid_of_mem_paths ((isValid_iff.1 h).2.1 k hk) hp

theorem Template.isValid_of_mem_paths {T : Template} (h : T.isValid = true) {p : Path} (hp : p ∈ T.paths) :
    p.isValid = true := by
  induction T with
  | nil => simp [paths] at hp
  | bit b rest ih =>
    obtain ⟨hb, hrest⟩ := valid_bit h
    rcases List.mem_append.1 hp with hp | hp
    · cases b with
      | char c => simp [Bit.paths] at hp
      | hole q => exact (List.mem_singleton.1 hp) ▸ hb
    · exact ih hrest hp
  | leaf o rest ih =>
    obtain ⟨ho, -, hrest⟩ := valid_leaf h
    rcases List.mem_append.1 hp with hp | hp
    · exact Opening.isValid_of_mem_paths ho hp
    · exact ih hrest hp
  | element o inside rest ihInside ih =>
    obtain ⟨ho, -, hinside, hrest⟩ := valid_element h
    simp only [paths, List.mem_append] at hp
    rcases hp with hp | hp | hp
    · exact Opening.isValid_of_mem_paths ho hp
    · exact ihInside hinside hp
    · exact ih hrest hp

/-! ## Exchanging paths -/

/-- The path with another name in the place of an item. -/
def Path.rename (item new : Text) (p : Path) : Path := if p.head = item then { p with head := new } else p

def Bit.map (f : Path → Path) : Bit → Bit
  | char c => char c
  | hole p => hole (f p)

def Clause.map (f : Path → Path) : Clause → Clause
  | loop item source => loop item (f source)
  | guard negated p => guard negated (f p)

namespace Chunk

def map (f : Path → Path) : Chunk → Chunk
  | space c => space c
  | plain blank name quote value => plain blank name quote (value.map (Bit.map f))
  | directive blank quote clause => directive blank quote (clause.map f)

/-- Only the source of a loop is exchanged. -/
def mapSource (f : Path → Path) : Chunk → Chunk
  | directive blank quote (.loop item source) => directive blank quote (.loop item (f source))
  | k => k

end Chunk

namespace Opening

def declares (item : Text) (o : Opening) : Bool := o.loop?.any fun loop => loop.1 == item

/-- A tag with paths exchanged. A loop over the item hides it from all but its own source. -/
def rename (item new : Text) (o : Opening) : Opening :=
  if o.declares item then { o with chunks := o.chunks.map (Chunk.mapSource (Path.rename item new)) }
  else { o with chunks := o.chunks.map (Chunk.map (Path.rename item new)) }

end Opening

/-- A template with an item renamed wherever it is not hidden. -/
def Template.rename (item new : Text) : Template → Template
  | nil => nil
  | bit b rest => bit (b.map (Path.rename item new)) (rest.rename item new)
  | leaf o rest => leaf (o.rename item new) (rest.rename item new)
  | element o inside rest =>
    element (o.rename item new) (if o.declares item then inside else inside.rename item new)
      (rest.rename item new)

/-! ## Exchanged paths are valid -/

section Valid

variable {item new : Text}

theorem Path.isValid_rename (item : Text) (hnew : isIdent new = true) {p : Path} (h : p.isValid = true) :
    (p.rename item new).isValid = true := by
  unfold rename
  split
  · exact isValid_iff.2 ⟨hnew, (isValid_iff.1 h).2⟩
  · exact h

variable {f : Path → Path}

theorem Bit.isValid_map (hf : ∀ p, p.isValid = true → (f p).isValid = true) {b : Bit} (h : b.isValid = true) :
    (b.map f).isValid = true := by
  cases b with
  | char c => exact h
  | hole p => exact hf p h

theorem Clause.isValid_map (hf : ∀ p, p.isValid = true → (f p).isValid = true) {clause : Clause}
    (h : clause.isValid = true) : (clause.map f).isValid = true := by
  cases clause with
  | loop item source =>
    obtain ⟨hitem, hsource⟩ := valid_loop h
    simp [map, isValid, hitem, hf source hsource]
  | guard negated p => exact hf p h

namespace Chunk

theorem isValid_map (hf : ∀ p, p.isValid = true → (f p).isValid = true) {k : Chunk} (h : k.isValid = true) :
    (k.map f).isValid = true := by
  cases k with
  | space c => exact h
  | plain blank name quote value =>
    simp only [isValid, Bool.and_eq_true, List.all_eq_true, bne_iff_ne] at h
    obtain ⟨hplain, hvalue⟩ := h
    simp only [map, isValid, Bool.and_eq_true, List.all_eq_true, bne_iff_ne, List.forall_mem_map]
    refine ⟨hplain, fun b hb => ⟨Bit.isValid_map hf (hvalue b hb).1, ?_⟩⟩
    cases b with
    | char c => exact (hvalue _ hb).2
    | hole p => simp [Bit.map]
  | directive blank quote clause =>
    obtain ⟨hblank, hquote, hclause⟩ := valid_directive h
    simp [map, isValid, hblank, hquote, Clause.isValid_map hf hclause]

theorem isValid_mapSource (hf : ∀ p, p.isValid = true → (f p).isValid = true) {k : Chunk}
    (h : k.isValid = true) : (k.mapSource f).isValid = true := by
  rcases k with _ | _ | ⟨blank, quote, _ | _⟩
  · exact h
  · exact h
  · exact isValid_map hf h
  · exact h

@[simp] theorem kind?_map (f : Path → Path) (k : Chunk) : (k.map f).kind? = k.kind? := by
  rcases k with _ | _ | ⟨_, _, _ | _⟩ <;> rfl

@[simp] theorem kind?_mapSource (f : Path → Path) (k : Chunk) : (k.mapSource f).kind? = k.kind? := by
  rcases k with _ | _ | ⟨_, _, _ | _⟩ <;> rfl

@[simp] theorem loop?_map (f : Path → Path) (k : Chunk) :
    (k.map f).loop? = k.loop?.map fun loop => (loop.1, f loop.2) := by
  rcases k with _ | _ | ⟨_, _, _ | _⟩ <;> rfl

@[simp] theorem loop?_mapSource (f : Path → Path) (k : Chunk) :
    (k.mapSource f).loop? = k.loop?.map fun loop => (loop.1, f loop.2) := by
  rcases k with _ | _ | ⟨_, _, _ | _⟩ <;> rfl

end Chunk

namespace Opening

theorem isValid_mapChunks {g : Chunk → Chunk} (hvalid : ∀ k, k.isValid = true → (g k).isValid = true)
    (hkind : ∀ k, (g k).kind? = k.kind?) {o : Opening} (h : o.isValid = true) :
    Opening.isValid { o with chunks := o.chunks.map g } = true := by
  obtain ⟨hname, hchunks, hcount⟩ := isValid_iff.1 h
  refine isValid_iff.2 ⟨hname, ?_, fun kind => ?_⟩
  · simpa using fun k hk => hvalid k (hchunks k hk)
  · simpa [List.countP_map, Function.comp_def, hkind] using hcount kind

theorem isValid_rename (hnew : isIdent new = true) {o : Opening} (h : o.isValid = true) :
    (o.rename item new).isValid = true := by
  have hpath : ∀ p : Path, p.isValid = true → (p.rename item new).isValid = true := fun p =>
    Path.isValid_rename item hnew
  unfold rename
  split
  · exact isValid_mapChunks (fun k => Chunk.isValid_mapSource hpath) (Chunk.kind?_mapSource _) h
  · exact isValid_mapChunks (fun k => Chunk.isValid_map hpath) (Chunk.kind?_map _) h

@[simp] theorem slash_rename (item new : Text) (o : Opening) : (o.rename item new).slash = o.slash := by
  unfold rename
  split <;> rfl

@[simp] theorem name_rename (item new : Text) (o : Opening) : (o.rename item new).name = o.name := by
  unfold rename
  split <;> rfl

@[simp] theorem closingTag_rename (item new : Text) (o : Opening) :
    (o.rename item new).closingTag = o.closingTag := by
  simp [closingTag]

theorem loop?_rename (item new : Text) (o : Opening) :
    (o.rename item new).loop? = o.loop?.map fun loop => (loop.1, loop.2.rename item new) := by
  have hmap : ∀ (ks : List Chunk) (g : Chunk → Chunk),
      (∀ k, (g k).loop? = k.loop?.map fun loop => (loop.1, loop.2.rename item new)) →
        (ks.map g).findSome? Chunk.loop? =
          (ks.findSome? Chunk.loop?).map fun loop => (loop.1, loop.2.rename item new) := by
    intro ks g hg
    induction ks with
    | nil => rfl
    | cons k ks ih =>
      rw [List.map_cons, List.findSome?_cons, List.findSome?_cons, hg]
      cases k.loop? with
      | none => exact ih
      | some loop => rfl
  unfold rename
  split
  · exact hmap o.chunks _ (Chunk.loop?_mapSource _)
  · exact hmap o.chunks _ (Chunk.loop?_map _)

end Opening

namespace Template

theorem isValid_rename (hnew : isIdent new = true) {T : Template} (h : T.isValid = true) :
    (T.rename item new).isValid = true := by
  induction T with
  | nil => rfl
  | bit b rest ih =>
    obtain ⟨hb, hrest⟩ := valid_bit h
    simp [rename, isValid, Bit.isValid_map (fun p => Path.isValid_rename item hnew) hb, ih hrest]
  | leaf o rest ih =>
    simp only [isValid, Bool.and_eq_true] at h
    simp [rename, isValid, Opening.isValid_rename hnew h.1.1, h.1.2, ih h.2]
  | element o inside rest ihInside ih =>
    simp only [isValid, Bool.and_eq_true] at h
    have hinside : (if o.declares item then inside else inside.rename item new).isValid = true := by
      split
      · exact h.1.2
      · exact ihInside h.1.2
    rw [rename, isValid, Opening.isValid_rename hnew h.1.1.1, hinside, ih h.2]
    simpa using h.1.1.2

end Template

end Valid

/-! ## The paths of a renamed template -/

section Paths

variable {item new : Text}

theorem Path.head_rename (item new : Text) (p : Path) :
    (p.rename item new).head = new ∨ (p.rename item new).head = p.head := by
  unfold rename
  split
  · exact .inl rfl
  · exact .inr rfl

theorem Chunk.paths_map (f : Path → Path) (k : Chunk) : (k.map f).paths = k.paths.map f := by
  rcases k with _ | ⟨_, _, _, value⟩ | ⟨_, _, _ | _⟩
  · rfl
  · have hbit : ∀ b : Bit, (b.map f).paths = b.paths.map f := by
      rintro (_ | _) <;> rfl
    simp [map, paths, List.flatMap_map, List.map_flatMap, hbit]
  · rfl
  · rfl

theorem Chunk.exists_of_mem_paths_mapSource {f : Path → Path} {k : Chunk} {p : Path}
    (h : p ∈ (k.mapSource f).paths) : ∃ q ∈ k.paths, p = q ∨ p = f q := by
  rcases k with _ | _ | ⟨_, _, _ | _⟩
  · exact ⟨p, h, .inl rfl⟩
  · exact ⟨p, h, .inl rfl⟩
  · exact ⟨_, List.mem_singleton_self _, .inr (List.mem_singleton.1 h)⟩
  · exact ⟨p, h, .inl rfl⟩

theorem Opening.exists_of_mem_paths_rename {o : Opening} {p : Path} (h : p ∈ (o.rename item new).paths) :
    ∃ q ∈ o.paths, p = q ∨ p = q.rename item new := by
  unfold rename at h
  split at h
  all_goals
    obtain ⟨k', hk', hp⟩ := List.mem_flatMap.1 h
    obtain ⟨k, hk, rfl⟩ := List.mem_map.1 hk'
  · obtain ⟨q, hq, hpq⟩ := Chunk.exists_of_mem_paths_mapSource hp
    exact ⟨q, List.mem_flatMap.2 ⟨k, hk, hq⟩, hpq⟩
  · rw [Chunk.paths_map] at hp
    obtain ⟨q, hq, rfl⟩ := List.mem_map.1 hp
    exact ⟨q, List.mem_flatMap.2 ⟨k, hk, hq⟩, .inr rfl⟩

namespace Template

theorem exists_of_mem_paths_rename {T : Template} {p : Path} (h : p ∈ (T.rename item new).paths) :
    ∃ q ∈ T.paths, p = q ∨ p = q.rename item new := by
  induction T with
  | nil => simp [rename, paths] at h
  | bit b rest ih =>
    rcases List.mem_append.1 h with h | h
    · cases b with
      | char c => simp [Bit.map, Bit.paths] at h
      | hole q => exact ⟨q, List.mem_append_left _ (List.mem_singleton_self q), .inr (List.mem_singleton.1 h)⟩
    · obtain ⟨q, hq, hpq⟩ := ih h
      exact ⟨q, List.mem_append_right _ hq, hpq⟩
  | leaf o rest ih =>
    rcases List.mem_append.1 h with h | h
    · obtain ⟨q, hq, hpq⟩ := Opening.exists_of_mem_paths_rename h
      exact ⟨q, List.mem_append_left _ hq, hpq⟩
    · obtain ⟨q, hq, hpq⟩ := ih h
      exact ⟨q, List.mem_append_right _ hq, hpq⟩
  | element o inside rest ihInside ih =>
    simp only [rename, paths, List.mem_append] at h ⊢
    rcases h with h | h | h
    · obtain ⟨q, hq, hpq⟩ := Opening.exists_of_mem_paths_rename h
      exact ⟨q, .inl hq, hpq⟩
    · split at h
      · exact ⟨p, .inr (.inl h), .inl rfl⟩
      · obtain ⟨q, hq, hpq⟩ := ihInside h
        exact ⟨q, .inr (.inl hq), hpq⟩
    · obtain ⟨q, hq, hpq⟩ := ih h
      exact ⟨q, .inr (.inr hq), hpq⟩

@[simp] theorem items_rename (item new : Text) (T : Template) : (T.rename item new).items = T.items := by
  induction T with
  | nil => rfl
  | bit b rest ih => simp [rename, items, ih]
  | leaf o rest ih => simp [rename, items, ih, Opening.loop?_rename, Function.comp_def]
  | element o inside rest ihInside ih =>
    have hinside : (if o.declares item then inside else inside.rename item new).items = inside.items := by
      split
      · rfl
      · exact ihInside
    simp [rename, items, ih, hinside, Opening.loop?_rename, Function.comp_def]

end Template

end Paths

/-! ## What renamed templates stand for -/

namespace Env

variable {e e' : Env} {item new : Text} {p : Path}

theorem bind_congr (h : e' p = e p) (item : Text) (v : Value) : e'.bind item v p = e.bind item v p := by
  simp only [bind, h]

/-- Below a loop over the item, the renamed item cannot be told from the item. -/
theorem bind_hidden (h : e' (p.rename item new) = e p) (v : Value) : e'.bind item v p = e.bind item v p := by
  unfold bind
  split
  · rfl
  · next hne => rw [← h, Path.rename, if_neg hne]

/-- Below a loop over another item, the renamed item still stands for what the item stood for. -/
theorem bind_rename {other : Text} (hitem : other ≠ item) (hnew : new ≠ other)
    (h : e' (p.rename item new) = e p) (v : Value) :
    e'.bind other v (p.rename item new) = e.bind other v p := by
  unfold bind
  by_cases hp : p.head = other
  · have hrename : p.rename item new = p := by rw [Path.rename, if_neg (by rw [hp]; exact hitem)]
    rw [hrename, if_pos hp, if_pos hp]
  · have hhead : (p.rename item new).head ≠ other := by
      rcases p.head_rename item new with he | he <;> rw [he]
      · exact hnew
      · exact hp
    rw [if_neg hhead, if_neg hp, h]

end Env

section Evaluation

variable {e e' : Env} {f : Path → Path} {item new : Text}

theorem Bit.eval_map {b : Bit} (h : ∀ p ∈ b.paths, e' (f p) = e p) : (b.map f).eval e' = b.eval e := by
  cases b with
  | char c => rfl
  | hole p => simp only [map, eval, h p (List.mem_singleton_self p)]

theorem Clause.holds_map {clause : Clause} (h : ∀ p ∈ clause.paths, e' (f p) = e p) :
    (clause.map f).holds e' = clause.holds e := by
  cases clause with
  | loop => rfl
  | guard negated p => simp only [map, holds, h p (List.mem_singleton_self p)]

namespace Chunk

theorem eval_map {k : Chunk} (h : ∀ p ∈ k.paths, e' (f p) = e p) : (k.map f).eval e' = k.eval e := by
  cases k with
  | space | directive => rfl
  | plain blank name quote value =>
    have hvalue : (value.map (Bit.map f)).flatMap (Bit.eval e') = value.flatMap (Bit.eval e) := by
      rw [List.flatMap_map]
      refine List.flatMap_congr fun b hb => Bit.eval_map fun p hp => h p ?_
      exact List.mem_flatMap.2 ⟨b, hb, hp⟩
    rw [map, eval, eval, hvalue]

theorem holds_map {k : Chunk} (h : ∀ p ∈ k.paths, e' (f p) = e p) : (k.map f).holds e' = k.holds e := by
  cases k with
  | space | plain => rfl
  | directive blank quote clause => exact Clause.holds_map h

theorem eval_mapSource (f : Path → Path) (e : Env) (k : Chunk) : (k.mapSource f).eval e = k.eval e := by
  rcases k with _ | _ | ⟨_, _, _ | _⟩ <;> rfl

theorem holds_mapSource (f : Path → Path) (e : Env) (k : Chunk) : (k.mapSource f).holds e = k.holds e := by
  rcases k with _ | _ | ⟨_, _, _ | _⟩ <;> rfl

@[simp] theorem map_id (k : Chunk) : k.map id = k := by
  rcases k with _ | ⟨_, _, _, value⟩ | ⟨_, _, _ | _⟩
  · rfl
  · have hbit : Bit.map id = id := by
      funext b
      cases b <;> rfl
    simp [map, hbit]
  · rfl
  · rfl

end Chunk

namespace Opening

variable {o : Opening}

theorem eval_congr (h : ∀ p ∈ o.paths, e' p = e p) : o.eval e' = o.eval e ∧ o.holds e' = o.holds e := by
  have hchunk : ∀ k ∈ o.chunks, k.eval e' = k.eval e ∧ k.holds e' = k.holds e := by
    intro k hk
    have hpaths : ∀ p ∈ k.paths, e' (id p) = e p := fun p hp => h p (List.mem_flatMap.2 ⟨k, hk, hp⟩)
    rw [← Chunk.eval_map hpaths, ← Chunk.holds_map hpaths, Chunk.map_id]
    exact ⟨rfl, rfl⟩
  rw [eval, eval, List.flatMap_congr fun k hk => (hchunk k hk).1]
  refine ⟨rfl, ?_⟩
  rw [Bool.eq_iff_iff, holds, holds, List.all_eq_true, List.all_eq_true]
  exact forall₂_congr fun k hk => by rw [(hchunk k hk).2]

theorem eval_rename_hidden (new : Text) (hdeclares : o.declares item = true) (h : ∀ p ∈ o.paths, e' p = e p) :
    (o.rename item new).eval e' = o.eval e ∧ (o.rename item new).holds e' = o.holds e := by
  obtain ⟨heval, hholds⟩ := eval_congr h
  rw [← heval, ← hholds, rename, if_pos hdeclares]
  simp only [eval, holds, List.flatMap_map, List.all_map, Function.comp_def, Chunk.eval_mapSource,
    Chunk.holds_mapSource]
  exact ⟨rfl, trivial⟩

theorem eval_rename_open (hdeclares : o.declares item = false)
    (h : ∀ p ∈ o.paths, e' (p.rename item new) = e p) :
    (o.rename item new).eval e' = o.eval e ∧ (o.rename item new).holds e' = o.holds e := by
  have hpaths : ∀ k ∈ o.chunks, ∀ p ∈ k.paths, e' (p.rename item new) = e p := fun k hk p hp =>
    h p (List.mem_flatMap.2 ⟨k, hk, hp⟩)
  rw [rename, if_neg (by simp [hdeclares])]
  simp only [eval, holds, List.flatMap_map, List.all_map]
  rw [List.flatMap_congr fun k hk => Chunk.eval_map (hpaths k hk)]
  refine ⟨rfl, ?_⟩
  rw [Bool.eq_iff_iff, List.all_eq_true, List.all_eq_true]
  exact forall₂_congr fun k hk => by rw [Function.comp_apply, Chunk.holds_map (hpaths k hk)]

theorem repeated_congr {body body' : Env → Except LoopFault Text} (h : ∀ p ∈ o.paths, e' p = e p)
    (hbody : ∀ e₁ e₁' : Env, (∀ p, e' p = e p → e₁' p = e₁ p) → body' e₁' = body e₁) :
    o.repeated e' body' = o.repeated e body := by
  unfold repeated
  cases hloop : o.loop? with
  | none => exact hbody e e' fun p hp => hp
  | some loop =>
    obtain ⟨item, source⟩ := loop
    have hitem : ∀ v, body' (e'.bind item v) = body (e.bind item v) := fun v =>
      hbody _ _ fun p hp => Env.bind_congr hp item v
    dsimp only
    rw [h source (source_mem_paths hloop)]
    simp only [hitem]

/-- An element with an item renamed stands for what it stood for, if its body does below any loop. -/
theorem repeated_rename {body body' : Env → Except LoopFault Text}
    (hnew : ∀ loop, o.loop? = some loop → new ≠ loop.1) (h : ∀ p ∈ o.paths, e' (p.rename item new) = e p)
    (hhidden : o.declares item = true → ∀ e₁ e₁' : Env,
      (∀ p, e' (p.rename item new) = e p → e₁' p = e₁ p) → body' e₁' = body e₁)
    (hopen : o.declares item = false → ∀ e₁ e₁' : Env,
      (∀ p, e' (p.rename item new) = e p → e₁' (p.rename item new) = e₁ p) → body' e₁' = body e₁) :
    (o.rename item new).repeated e' body' = o.repeated e body := by
  unfold repeated
  rw [loop?_rename]
  cases hloop : o.loop? with
  | none => exact hopen (by simp [declares, hloop]) e e' fun p hp => hp
  | some loop =>
    obtain ⟨other, source⟩ := loop
    have hitem : ∀ v, body' (e'.bind other v) = body (e.bind other v) := by
      intro v
      by_cases hother : other = item
      · exact hhidden (by simp [declares, hloop, hother]) _ _ fun p hp => hother ▸ Env.bind_hidden hp v
      · exact hopen (by simp [declares, hloop, hother]) _ _ fun p hp =>
          Env.bind_rename hother (hnew _ hloop) hp v
    dsimp only [Option.map_some]
    rw [h source (source_mem_paths hloop)]
    simp only [hitem]

end Opening

namespace Template

theorem eval_congr {T : Template} (h : ∀ p ∈ T.paths, e' p = e p) : T.eval e' = T.eval e := by
  induction T generalizing e e' with
  | nil => rfl
  | bit b rest ih =>
    simp only [paths, List.forall_mem_append] at h
    have hbit : b.eval e' = b.eval e := by
      cases b with
      | char c => rfl
      | hole p => simp only [Bit.eval, h.1 p (List.mem_singleton_self p)]
    rw [eval, eval, hbit, ih h.2]
  | leaf o rest ih =>
    simp only [paths, List.forall_mem_append] at h
    rw [eval, eval, ih h.2]
    congr 1
    refine Opening.repeated_congr h.1 fun e₁ e₁' he => ?_
    obtain ⟨heval, hholds⟩ := Opening.eval_congr (o := o) fun p hp => he p (h.1 p hp)
    rw [heval, hholds]
  | element o inside rest ihInside ih =>
    simp only [paths, List.forall_mem_append] at h
    rw [eval, eval, ih h.2.2]
    congr 1
    refine Opening.repeated_congr h.1 fun e₁ e₁' he => ?_
    obtain ⟨heval, hholds⟩ := Opening.eval_congr (o := o) fun p hp => he p (h.1 p hp)
    rw [ihInside fun p hp => he p (h.2.1 p hp), heval, hholds]

/-- Under a new name that no loop of the template hides, an item stands for what it stood for. -/
theorem eval_rename {T : Template} (hnew : new ∉ T.items) (h : ∀ p ∈ T.paths, e' (p.rename item new) = e p) :
    (T.rename item new).eval e' = T.eval e := by
  induction T generalizing e e' with
  | nil => rfl
  | bit b rest ih =>
    simp only [paths, List.forall_mem_append] at h
    rw [rename, eval, eval, ih hnew h.2, Bit.eval_map h.1]
  | leaf o rest ih =>
    simp only [paths, List.forall_mem_append] at h
    simp only [items, List.mem_append, not_or] at hnew
    rw [rename, eval, eval, ih hnew.2 h.2]
    congr 1
    refine Opening.repeated_rename (fun loop hloop he => hnew.1 (by simp [hloop, he])) h.1
      (fun hdeclares e₁ e₁' he => ?_) fun hdeclares e₁ e₁' he => ?_
    · obtain ⟨heval, hholds⟩ := Opening.eval_rename_hidden new hdeclares fun p hp => he p (h.1 p hp)
      rw [heval, hholds]
    · obtain ⟨heval, hholds⟩ := Opening.eval_rename_open hdeclares fun p hp => he p (h.1 p hp)
      rw [heval, hholds]
  | element o inside rest ihInside ih =>
    simp only [paths, List.forall_mem_append] at h
    simp only [items, List.mem_append, not_or] at hnew
    rw [rename, eval, eval, ih hnew.2.2 h.2.2, Opening.closingTag_rename]
    congr 1
    refine Opening.repeated_rename (fun loop hloop he => hnew.1 (by simp [hloop, he])) h.1
      (fun hdeclares e₁ e₁' he => ?_) fun hdeclares e₁ e₁' he => ?_
    · obtain ⟨heval, hholds⟩ := Opening.eval_rename_hidden new hdeclares fun p hp => he p (h.1 p hp)
      rw [if_pos hdeclares, eval_congr fun p hp => he p (h.2.1 p hp), heval, hholds]
    · obtain ⟨heval, hholds⟩ := Opening.eval_rename_open hdeclares fun p hp => he p (h.1 p hp)
      rw [if_neg (by simp [hdeclares]), ihInside hnew.2.1 fun p hp => he p (h.2.1 p hp), heval, hholds]

end Template

end Evaluation
end HtmlTemplate
