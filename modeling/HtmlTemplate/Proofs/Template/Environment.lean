import HtmlTemplate.Proofs.Scope.Names
import HtmlTemplate.Proofs.Template.Directive
import HtmlTemplate.Proofs.Template.Rename

/-!
# Scopes as environments

A scope binds no item. It binds values to synthetic names, and an item that was renamed to such a name
stands for the value (`Scope.env_bind_rename`), while all names that the template knows stand for what
they stood for. No synthetic name is taken from a template that spells it (`Template.fits_reserve`).
-/

namespace HtmlTemplate

/-! ## Looking up paths -/

namespace Path

variable {p : Path}

theorem head_ne_nil (h : p.isValid = true) : p.head ≠ [] := (isIdent_iff.1 (isValid_iff.1 h).1).1

theorem resolve?_text (h : p.isValid = true) (v : Value) :
    v.resolve? p.text = (p.head :: p.tail).foldlM Value.child? v := by
  rw [Value.resolve?, if_neg (by simp [text, head_ne_nil h]), DataPath.segments, splitOn_text h]

theorem splitHead_text (h : p.isValid = true) :
    (DataPath.splitHead p.text).1 = p.head ∧
      ∀ v : Value, v.resolve? (DataPath.splitHead p.text).2 = p.tail.foldlM Value.child? v := by
  obtain ⟨htake, hdrop⟩ := takeWhile_text h
  rw [DataPath.splitHead, htake, hdrop]
  refine ⟨rfl, fun v => ?_⟩
  cases htail : p.tail with
  | nil => rfl
  | cons s tail =>
    have hrest : Path.isValid ⟨s, tail⟩ = true := by
      rw [isValid_iff, htail, List.forall_mem_cons] at h
      exact isValid_iff.2 h.2
    exact resolve?_text hrest v

end Path

namespace Scope

variable {s : Scope} {p : Path}

/-- What paths stand for in a scope. -/
def env (s : Scope) : Env := fun p => s.lookup? p.text

theorem env_eq (h : p.isValid = true) : s.env p =
    match s.bindings.lookup p.head with
    | some bound => p.tail.foldlM Value.child? bound
    | none => (p.head :: p.tail).foldlM Value.child? s.data := by
  obtain ⟨hhead, htail⟩ := Path.splitHead_text h
  rw [env, lookup?, if_neg (by simp [Path.text, Path.head_ne_nil h]), hhead, Path.resolve?_text h]
  cases s.bindings.lookup p.head with
  | none => rfl
  | some bound => exact htail bound

/-! ## Names that are kept free -/

/-- A name that no new binding gets: if it is synthetic, it is taken. -/
def Keeps (s : Scope) (name : Text) : Prop := ∀ n, name = nameOf n → s.isTaken name = true

theorem isIdent_nameOf (n : Nat) : isIdent (nameOf n) = true := by
  refine isIdent_iff.2 ⟨by simp [nameOf, stem], fun c hc => ?_⟩
  rcases List.mem_append.1 hc with hc | hc
  · simp only [stem, List.mem_cons, List.not_mem_nil, or_false] at hc
    rcases hc with rfl | rfl | rfl | rfl | rfl | rfl | rfl | rfl | rfl | rfl | rfl | rfl | rfl <;> decide
  · have hdigit : c.isDigit = true := Nat.isDigit_of_mem_toDigits (by decide) (by decide) hc
    simp [Char.isAlphanum, hdigit]

theorem isIdent_bind (s : Scope) (v : Value) : isIdent (s.bind v).1 = true := isIdent_nameOf s.free

theorem Keeps.ne_bind {name : Text} (h : s.Keeps name) (v : Value) : name ≠ (s.bind v).1 := by
  rintro rfl
  have htaken := h s.free rfl
  rw [show (s.bind v).1 = nameOf s.free from rfl, s.isTaken_free] at htaken
  simp at htaken

theorem Keeps.bind {name : Text} (h : s.Keeps name) (v : Value) : (s.bind v).2.Keeps name := by
  intro n hn
  have htaken := h n hn
  have hlookup := lookup_bind (h.ne_bind v)
  rw [isTaken] at htaken ⊢
  rw [hlookup]
  exact htaken

theorem keeps_bind_self (s : Scope) (v : Value) : (s.bind v).2.Keeps (s.bind v).1 := by
  intro n _
  rw [isTaken, s.lookup_bind_self v]
  rfl

/-- A later scope, in which all names that are kept stand for what they stood for. -/
structure Extends (s s' : Scope) : Prop where
  keeps : ∀ {name : Text}, s.Keeps name → s'.Keeps name
  env_eq : ∀ {p : Path}, p.isValid = true → s.Keeps p.head → s'.env p = s.env p

theorem Extends.refl (s : Scope) : s.Extends s := ⟨id, fun _ _ => rfl⟩

theorem Extends.trans {s₁ s₂ s₃ : Scope} (h : s₁.Extends s₂) (h' : s₂.Extends s₃) : s₁.Extends s₃ where
  keeps hname := h'.keeps (h.keeps hname)
  env_eq hp hname := (h'.env_eq hp (h.keeps hname)).trans (h.env_eq hp hname)

theorem extends_bind (s : Scope) (v : Value) : s.Extends (s.bind v).2 where
  keeps h := h.bind v
  env_eq hp hname := by
    rw [Scope.env_eq hp, Scope.env_eq hp, lookup_bind (hname.ne_bind v)]
    rfl

/-- An item renamed to a new binding stands for the value bound. -/
theorem env_bind_rename (hp : p.isValid = true) (hname : s.Keeps p.head) (item : Text) (v : Value) :
    (s.bind v).2.env (p.rename item (s.bind v).1) = s.env.bind item v p := by
  unfold Path.rename Env.bind
  split
  · have hvalid : Path.isValid { p with head := (s.bind v).1 } = true :=
      Path.isValid_iff.2 ⟨s.isIdent_bind v, (Path.isValid_iff.1 hp).2⟩
    rw [env_eq hvalid, s.lookup_bind_self v]
  · exact (s.extends_bind v).env_eq hp hname

end Scope

/-! ## Templates that fit a scope -/

/-- A valid template whose names the scope keeps. -/
structure Template.Fits (s : Scope) (T : Template) : Prop where
  valid : T.isValid = true
  paths : ∀ p ∈ T.paths, s.Keeps p.head
  items : ∀ i ∈ T.items, s.Keeps i

namespace Template

namespace Fits

variable {s s' : Scope} {S T : Template}

theorem mono (h : T.Fits s) (hs : s.Extends s') : T.Fits s' where
  valid := h.valid
  paths p hp := hs.keeps (h.paths p hp)
  items i hi := hs.keeps (h.items i hi)

theorem eval_eq (h : T.Fits s) (hs : s.Extends s') : T.eval s'.env = T.eval s.env :=
  eval_congr fun p hp => hs.env_eq (isValid_of_mem_paths h.valid hp) (h.paths p hp)

/-- With an item renamed to a new binding, the template fits and stands for what it stands for below the
item. -/
theorem bind (h : T.Fits s) (item : Text) (v : Value) :
    (T.rename item (s.bind v).1).Fits (s.bind v).2 ∧
      (T.rename item (s.bind v).1).eval (s.bind v).2.env = T.eval (s.env.bind item v) := by
  refine ⟨⟨isValid_rename (s.isIdent_bind v) h.valid, fun p hp => ?_, fun i hi => ?_⟩, ?_⟩
  · obtain ⟨q, hq, rfl | rfl⟩ := exists_of_mem_paths_rename hp
    · exact (h.paths _ hq).bind v
    · rcases q.head_rename item (s.bind v).1 with he | he <;> rw [he]
      · exact s.keeps_bind_self v
      · exact (h.paths q hq).bind v
  · rw [items_rename] at hi
    exact (h.items i hi).bind v
  · refine eval_rename (fun hmem => (h.items _ hmem).ne_bind v rfl) fun p hp => ?_
    exact Scope.env_bind_rename (isValid_of_mem_paths h.valid hp) (h.paths p hp) item v

theorem append (hS : S.Fits s) (hT : T.Fits s) : (S.append T).Fits s where
  valid := by rw [isValid_append, hS.valid, hT.valid, Bool.and_self]
  paths p hp := by
    rw [paths_append, List.mem_append] at hp
    exact hp.elim (hS.paths p) (hT.paths p)
  items i hi := by
    rw [items_append, List.mem_append] at hi
    exact hi.elim (hS.items i) (hT.items i)

theorem of_append (h : (S.append T).Fits s) : S.Fits s ∧ T.Fits s := by
  have hvalid := h.valid
  have hpaths := h.paths
  have hitems := h.items
  rw [isValid_append, Bool.and_eq_true] at hvalid
  rw [paths_append, List.forall_mem_append] at hpaths
  rw [items_append, List.forall_mem_append] at hitems
  exact ⟨⟨hvalid.1, hpaths.1, hitems.1⟩, ⟨hvalid.2, hpaths.2, hitems.2⟩⟩

theorem nil (s : Scope) : Template.nil.Fits s := ⟨rfl, by simp [Template.paths], by simp [Template.items]⟩

end Fits

end Template

/-- A valid tag whose names the scope keeps. -/
structure Opening.Fits (s : Scope) (o : Opening) : Prop where
  valid : o.isValid = true
  paths : ∀ p ∈ o.paths, s.Keeps p.head
  items : ∀ i ∈ (o.loop?.map Prod.fst).toList, s.Keeps i

namespace Opening

variable {o : Opening} {s s' : Scope}

theorem Fits.mono (h : o.Fits s) (hs : s.Extends s') : o.Fits s' where
  valid := h.valid
  paths p hp := hs.keeps (h.paths p hp)
  items i hi := hs.keeps (h.items i hi)

theorem Fits.eval_eq (h : o.Fits s) (hs : s.Extends s') :
    o.eval s'.env = o.eval s.env ∧ o.holds s'.env = o.holds s.env :=
  eval_congr fun p hp => hs.env_eq (isValid_of_mem_paths h.valid hp) (h.paths p hp)

theorem Fits.without (h : o.Fits s) (kind : DirectiveKind) : (o.without kind).Fits s where
  valid := isValid_without h.valid kind
  paths p hp := by
    obtain ⟨k, hk, hp⟩ := List.mem_flatMap.1 hp
    exact h.paths p (List.mem_flatMap.2 ⟨k, List.mem_of_mem_filter hk, hp⟩)
  items i hi := by
    cases kind with
    | loop => simp [loop?_without] at hi
    | guard => exact h.items i (loop?_without_guard o ▸ hi)

end Opening

namespace Template

variable {T : Template} {o : Opening} {s : Scope}

theorem fits_leaf_iff : (leaf o T).Fits s ↔ o.Fits s ∧ o.tag.opensScope = false ∧ T.Fits s := by
  constructor
  · intro h
    obtain ⟨ho, hopens, hT⟩ := valid_leaf h.valid
    have hpaths := h.paths
    have hitems := h.items
    simp only [paths, items, List.forall_mem_append] at hpaths hitems
    exact ⟨⟨ho, hpaths.1, hitems.1⟩, hopens, hT, hpaths.2, hitems.2⟩
  · rintro ⟨ho, hopens, hT⟩
    refine ⟨?_, ?_, ?_⟩
    · rw [Opening.opensScope_tag ho.valid, Bool.not_eq_false'] at hopens
      rw [isValid, ho.valid, hopens, hT.valid]
      rfl
    · exact List.forall_mem_append.2 ⟨ho.paths, hT.paths⟩
    · exact List.forall_mem_append.2 ⟨ho.items, hT.items⟩

theorem fits_element_iff {inside : Template} :
    (element o inside T).Fits s ↔ o.Fits s ∧ o.tag.opensScope = true ∧ inside.Fits s ∧ T.Fits s := by
  constructor
  · intro h
    obtain ⟨ho, hopens, hinside, hT⟩ := valid_element h.valid
    have hpaths := h.paths
    have hitems := h.items
    simp only [paths, items, List.forall_mem_append] at hpaths hitems
    exact ⟨⟨ho, hpaths.1, hitems.1⟩, hopens, ⟨hinside, hpaths.2.1, hitems.2.1⟩, hT, hpaths.2.2, hitems.2.2⟩
  · rintro ⟨ho, hopens, hinside, hT⟩
    refine ⟨?_, ?_, ?_⟩
    · rw [Opening.opensScope_tag ho.valid] at hopens
      rw [isValid, ho.valid, hopens, hinside.valid, hT.valid]
      rfl
    · exact List.forall_mem_append.2 ⟨ho.paths, List.forall_mem_append.2 ⟨hinside.paths, hT.paths⟩⟩
    · exact List.forall_mem_append.2 ⟨ho.items, List.forall_mem_append.2 ⟨hinside.items, hT.items⟩⟩

end Template

/-! ## Names that a text spells -/

open Text (Spells)

theorem Path.spells_text (p : Path) {c d : Char} (hc : Text.isWord c = false) (hd : Text.isWord d = false)
    (v : Text) : Spells (c :: (p.text ++ d :: v)) p.head := by
  cases htail : p.tail with
  | nil => exact ⟨[], c, d, v, by simp [text, htail], hc, hd⟩
  | cons s tail =>
    exact ⟨[], c, '.', s ++ (tail.flatMap ('.' :: ·) ++ d :: v), by simp [text, htail], hc, by decide⟩

theorem Bit.spells_text {b : Bit} {p : Path} (hp : p ∈ b.paths) : Spells b.text p.head := by
  cases b with
  | char c => simp [paths] at hp
  | hole q =>
    obtain rfl := List.mem_singleton.1 hp
    exact (p.spells_text (c := '\x7b') (d := '\x7d') (by decide) (by decide) ['\x7d']).append_left ['\x7b']

namespace Chunk

variable {k : Chunk}

theorem spells_text (h : k.isValid = true) {p : Path} (hp : p ∈ k.paths) : Spells k.text p.head := by
  rcases k with _ | ⟨blank, name, quote, value⟩ | ⟨blank, quote, clause⟩
  · simp [paths] at hp
  · obtain ⟨b, hb, hp⟩ := List.mem_flatMap.1 hp
    have := (((Bit.spells_text hp).flatMap hb).append_right [quote]).append_left (blank :: (name ++ ['=', quote]))
    simpa [text] using this
  · have hquote := Text.not_isWord_of_isQuote (valid_directive h).2.1
    rcases clause with ⟨item, source⟩ | ⟨negated, q⟩
    · obtain rfl := List.mem_singleton.1 hp
      have := (p.spells_text (c := ' ') (by decide) hquote []).append_left
        (blank :: (DirectiveKind.loop.attributeName ++ '=' :: quote :: (item ++ [' ', 'o', 'f'])))
      simpa [text, Attribute.print_eq, Clause.attr, Clause.text, Clause.kind] using this
    · obtain rfl := List.mem_singleton.1 hp
      cases negated with
      | true =>
        have := (p.spells_text (c := '!') (by decide) hquote []).append_left
          (blank :: (DirectiveKind.guard.attributeName ++ ['=', quote]))
        simpa [text, Attribute.print_eq, Clause.attr, Clause.text, Clause.kind] using this
      | false =>
        have := (p.spells_text hquote hquote []).append_left
          (blank :: (DirectiveKind.guard.attributeName ++ ['=']))
        simpa [text, Attribute.print_eq, Clause.attr, Clause.text, Clause.kind] using this

theorem spells_item {blank quote : Char} {item : Text} {source : Path}
    (h : (directive blank quote (.loop item source)).isValid = true) :
    Spells (directive blank quote (.loop item source)).text item := by
  refine ⟨blank :: (DirectiveKind.loop.attributeName ++ ['=']), quote, ' ',
    'o' :: 'f' :: ' ' :: (source.text ++ [quote]), ?_, Text.not_isWord_of_isQuote (valid_directive h).2.1, by decide⟩
  simp [text, Attribute.print_eq, Clause.attr, Clause.text, Clause.kind]

end Chunk

namespace Opening

variable {o : Opening}

theorem spells_chunk {k : Chunk} (hk : k ∈ o.chunks) {name : Text} (h : Spells k.text name) :
    Spells o.tag.print name := by
  rw [print_tag]
  exact ((h.flatMap hk).append_right _).append_left _

theorem spells_path (h : o.isValid = true) {p : Path} (hp : p ∈ o.paths) : Spells o.tag.print p.head := by
  obtain ⟨k, hk, hp⟩ := List.mem_flatMap.1 hp
  exact spells_chunk hk (Chunk.spells_text ((isValid_iff.1 h).2.1 k hk) hp)

theorem spells_item (h : o.isValid = true) {item : Text} (hitem : item ∈ (o.loop?.map Prod.fst).toList) :
    Spells o.tag.print item := by
  simp only [Option.mem_toList, Option.map_eq_some_iff, Prod.exists] at hitem
  obtain ⟨i, source, hloop, rfl⟩ := hitem
  obtain ⟨blank, quote, hk⟩ := mem_chunks_of_loop? hloop
  exact spells_chunk hk (Chunk.spells_item ((isValid_iff.1 h).2.1 _ hk))

end Opening

theorem Template.spells_text {T : Template} (h : T.isValid = true) :
    (∀ p ∈ T.paths, Spells T.text p.head) ∧ ∀ i ∈ T.items, Spells T.text i := by
  induction T with
  | nil => simp [paths, items]
  | bit b rest ih =>
    obtain ⟨hpaths, hitems⟩ := ih (valid_bit h).2
    refine ⟨fun p hp => ?_, fun i hi => (hitems i hi).append_left _⟩
    rcases List.mem_append.1 hp with hp | hp
    · exact (Bit.spells_text hp).append_right _
    · exact (hpaths p hp).append_left _
  | leaf o rest ih =>
    obtain ⟨ho, -, hrest⟩ := valid_leaf h
    obtain ⟨hpaths, hitems⟩ := ih hrest
    refine ⟨fun p hp => ?_, fun i hi => ?_⟩
    · rcases List.mem_append.1 hp with hp | hp
      · exact (Opening.spells_path ho hp).append_right _
      · exact (hpaths p hp).append_left _
    · rcases List.mem_append.1 hi with hi | hi
      · exact (Opening.spells_item ho hi).append_right _
      · exact (hitems i hi).append_left _
  | element o inside rest ihInside ih =>
    obtain ⟨ho, -, hinside, hrest⟩ := valid_element h
    obtain ⟨hpaths, hitems⟩ := ih hrest
    obtain ⟨hpathsInside, hitemsInside⟩ := ihInside hinside
    refine ⟨fun p hp => ?_, fun i hi => ?_⟩
    · simp only [paths, List.mem_append] at hp
      rcases hp with hp | hp | hp
      · exact (Opening.spells_path ho hp).append_right _
      · exact ((hpathsInside p hp).append_right _).append_left _
      · exact (((hpaths p hp).append_left _).append_left _).append_left _
    · simp only [items, List.mem_append] at hi
      rcases hi with hi | hi | hi
      · exact (Opening.spells_item ho hi).append_right _
      · exact ((hitemsInside i hi).append_right _).append_left _
      · exact (((hitems i hi).append_left _).append_left _).append_left _

/-! ## Reserved names -/

namespace Scope

theorem keeps_reserve (s : Scope) {t name : Text} (h : Spells t name) : (s.reserve t).Keeps name := by
  rintro n rfl
  have hmem : nameOf n ∈ (s.reserve t).reserved :=
    List.mem_append_right _ (mem_namesIn_of_spells h)
  rw [isTaken, List.contains_iff_mem.2 hmem, Bool.or_true, Bool.true_or]

theorem env_reserve (data : Value) (t : Text) {p : Path} (h : p.isValid = true) :
    ((ofData data).reserve t).env p = Env.ofData data p := env_eq h

end Scope

/-- Where its own names are reserved, a template fits. -/
theorem Template.fits_reserve {T : Template} (h : T.isValid = true) (s : Scope) : T.Fits (s.reserve T.text) := by
  obtain ⟨hpaths, hitems⟩ := spells_text h
  exact ⟨h, fun p hp => s.keeps_reserve (hpaths p hp), fun i hi => s.keeps_reserve (hitems i hi)⟩

end HtmlTemplate
