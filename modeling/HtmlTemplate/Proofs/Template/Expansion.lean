import HtmlTemplate.Proofs.Directive.Expansion
import HtmlTemplate.Proofs.Markup.Span
import HtmlTemplate.Proofs.Template.Environment
import HtmlTemplate.Proofs.Template.Retarget

/-!
# Expansion keeps what a template stands for

A round of expansion puts copies in the place of the first element with a loop. Its outcome is the text of
a template that stands, in the scope after the round, for what the template stood for before it
(`Template.items_eq_nil_or_round`). So does the template that is left when no loop is, unless the
evaluation faults (`Template.exists_expand`).
-/

namespace HtmlTemplate

/-! ## Outcomes one after another -/

section Joined

variable (r s t : Except LoopFault Text)

@[simp] theorem joined_nil_left : joined (.ok []) r = r := by
  cases r <;> rfl

@[simp] theorem joined_nil_right : joined r (.ok []) = r := by
  cases r with
  | error f => rfl
  | ok t => exact congrArg Except.ok (List.append_nil t)

theorem joined_assoc : joined (joined r s) t = joined r (joined s t) := by
  cases r with
  | error f => rfl
  | ok r =>
    cases s with
    | error f => rfl
    | ok s =>
      cases t with
      | error f => rfl
      | ok t => exact congrArg Except.ok (List.append_assoc r s t)

@[simp] theorem joined_error (f : LoopFault) : joined (.error f) t = .error f := rfl

end Joined

namespace Opening

variable {o : Opening}

theorem repeated_of_none (h : o.loop? = none) (e : Env) (body : Env → Except LoopFault Text) :
    o.repeated e body = body e := by
  rw [repeated, h]

/-- Directives leave nothing behind, so none is missed. -/
@[simp] theorem eval_without (o : Opening) (kind : DirectiveKind) (e : Env) : (o.without kind).eval e = o.eval e := by
  have hchunks : ∀ ks : List Chunk,
      (ks.filter fun k => k.kind? != some kind).flatMap (Chunk.eval e) = ks.flatMap (Chunk.eval e) := by
    intro ks
    induction ks with
    | nil => rfl
    | cons k ks ih =>
      rw [List.filter_cons]
      split
      · rw [List.flatMap_cons, List.flatMap_cons, ih]
      · next hkind =>
        rcases k with _ | _ | _
        · simp [Chunk.kind?] at hkind
        · simp [Chunk.kind?] at hkind
        · exact ih
  rw [eval, eval, without, hchunks]
  rfl

@[simp] theorem holds_without_loop (o : Opening) (e : Env) : (o.without .loop).holds e = o.holds e := by
  rw [Bool.eq_iff_iff, holds, holds, List.all_eq_true, List.all_eq_true]
  refine ⟨fun h k hk => ?_, fun h k hk => h k (List.mem_of_mem_filter hk)⟩
  by_cases hkind : k.kind? = some .loop
  · rcases k with _ | _ | ⟨_, _, _ | _⟩
    · rfl
    · rfl
    · rfl
    · simp [Chunk.kind?, Clause.kind] at hkind
  · exact h k (List.mem_filter.2 ⟨hk, by simpa using hkind⟩)

end Opening

namespace Template

theorem eval_append (S T : Template) (e : Env) : (S.append T).eval e = joined (S.eval e) (T.eval e) := by
  induction S with
  | nil => rw [append, eval, joined_nil_left]
  | bit b rest ih => rw [append, eval, eval, ih, joined_assoc]
  | leaf o rest ih => rw [append, eval, eval, ih, joined_assoc]
  | element o inside rest _ ih => rw [append, eval, eval, ih, joined_assoc]

variable {S T : Template} {o : Opening}

theorem eval_leaf (h : o.loop? = none) (e : Env) :
    (leaf o nil).eval e = .ok (if o.holds e then o.eval e else []) := by
  rw [eval, eval, joined_nil_right, Opening.repeated_of_none h]

theorem eval_element (h : o.loop? = none) (inside : Template) (e : Env) :
    (element o inside nil).eval e = (inside.eval e).map fun t =>
      if o.holds e then o.eval e ++ (t ++ o.closingTag.print) else [] := by
  rw [eval, eval, joined_nil_right, Opening.repeated_of_none h]

theorem loop?_eq_none_of_items {rest : List Text} (h : (o.loop?.map Prod.fst).toList ++ rest = []) :
    o.loop? = none ∧ rest = [] := by
  simpa using h

theorem exists_eval (h : T.items = []) (e : Env) : ∃ t, T.eval e = .ok t := by
  induction T with
  | nil => exact ⟨[], rfl⟩
  | bit b rest ih =>
    obtain ⟨t, ht⟩ := ih h
    exact ⟨_, by rw [eval, ht]; rfl⟩
  | leaf o rest ih =>
    obtain ⟨hloop, hrest⟩ := loop?_eq_none_of_items h
    obtain ⟨t, ht⟩ := ih hrest
    exact ⟨_, by rw [eval, ht, Opening.repeated_of_none hloop]; rfl⟩
  | element o inside rest ihInside ih =>
    obtain ⟨hloop, hitems⟩ := loop?_eq_none_of_items h
    obtain ⟨hinside, hrest⟩ := List.append_eq_nil_iff.1 hitems
    obtain ⟨t, ht⟩ := ih hrest
    obtain ⟨u, hu⟩ := ihInside hinside
    exact ⟨_, by rw [eval, ht, Opening.repeated_of_none hloop, hu]; rfl⟩

theorem ofTag?_loop_eq_none (h : T.isValid = true) (hitems : T.items = []) :
    ∀ tag ∈ T.markup.tags, Directive.ofTag? .loop tag = none := by
  induction T with
  | nil => simp [markup]
  | bit b rest ih => simpa [markup] using ih (valid_bit h).2 hitems
  | leaf o rest ih =>
    obtain ⟨ho, -, hrest⟩ := valid_leaf h
    obtain ⟨hloop, hitems⟩ := loop?_eq_none_of_items hitems
    simpa [markup, Opening.ofTag?_loop_eq_none ho hloop] using ih hrest hitems
  | element o inside rest ihInside ih =>
    obtain ⟨ho, -, hinside, hrest⟩ := valid_element h
    obtain ⟨hloop, hitems⟩ := loop?_eq_none_of_items hitems
    obtain ⟨hitemsInside, hitemsRest⟩ := List.append_eq_nil_iff.1 hitems
    simp only [markup, Markup.tags_tag, Markup.tags_append, List.forall_mem_cons, List.forall_mem_append]
    exact ⟨Opening.ofTag?_loop_eq_none ho hloop, ihInside hinside hitemsInside, rfl, ih hrest hitemsRest⟩

end Template

/-! ## Copies -/

namespace Template

variable {T : Template} {s : Scope}

/-- The copies for the items of an array are the text of a template. It stands for what the fragment
stands for with each item in turn. -/
theorem exists_copies (h : T.Fits s) {item : Text} (hitem : isIdent item = true) (values : List Value) :
    ∃ (Y : Template) (s' : Scope), Directive.copies item T.text values s = (.ok Y.text, s') ∧ Y.Fits s' ∧
      s.Extends s' ∧ Y.eval s'.env = values.foldr (fun v rest => joined (T.eval (s.env.bind item v)) rest) (.ok []) := by
  induction values generalizing s with
  | nil => exact ⟨nil, s, rfl, .nil s, .refl s, rfl⟩
  | cons v values ih =>
    have hbind := s.extends_bind v
    obtain ⟨hcopy, heval⟩ := h.bind item v
    obtain ⟨Y, s', hcopies, hY, hs', hevals⟩ := ih (h.mono hbind)
    refine ⟨(T.rename item (s.bind v).1).append Y, s', ?_, (hcopy.mono hs').append hY, hbind.trans hs', ?_⟩
    · rw [Directive.copies_cons, retarget_text hitem (s.isIdent_bind v) h.valid]
      simp only [hcopies, text_append]
    · -- the first copy keeps its meaning in the later scopes, and so does the fragment for the other copies
      have hlater : ∀ w, T.eval ((s.bind v).2.env.bind item w) = T.eval (s.env.bind item w) := fun w =>
        eval_congr fun p hp =>
          Env.bind_congr (hbind.env_eq (isValid_of_mem_paths h.valid hp) (h.paths p hp)) item w
      rw [eval_append, hcopy.eval_eq hs', heval, hevals, List.foldr_cons]
      simp only [hlater]

end Template

/-! ## Rounds in surroundings -/

namespace Directive

theorem find?_surrounded {kind : DirectiveKind} {m front rest : Markup} {d : Directive}
    (h : find? kind m = some (front, d, rest)) {pre : Markup}
    (hpre : ∀ tag ∈ pre.tags, ofTag? kind tag = none) (post : Markup) :
    find? kind (pre ++ (m ++ post)) = some (pre ++ front, d, rest ++ post) := by
  rw [find?] at h ⊢
  rw [Markup.cutAtTag_append hpre, Markup.cutAtTag_append_right h, Option.map_some]

section At

variable {front rest inside after : Markup} {d : Directive} {s s' : Scope} {expr : LoopExpr}

theorem expandAt_of_array (hparse : LoopExpr.parse? d.value = some expr)
    (hcut : Markup.cutSpan d.tag rest = some (inside, after)) {values : List Value}
    (hsource : s.lookup? expr.source = some (.array values)) {t : Text}
    (hcopies : copies expr.item (d.stripped ++ inside.text) values s = (.ok t, s')) :
    expandAt front d rest s = (.ok (front.text ++ t ++ after.text), s') := by
  simp only [expandAt, hparse, hcut, hsource, hcopies]

theorem expandAt_of_ne (hparse : LoopExpr.parse? d.value = some expr)
    (hcut : Markup.cutSpan d.tag rest = some (inside, after))
    (hsource : ∀ values, s.lookup? expr.source ≠ some (.array values)) :
    expandAt front d rest s =
      (.error (.loopSource expr.item expr.source (Kind.of (s.lookup? expr.source))), s) := by
  simp only [expandAt, hparse, hcut]

end At

/-- The outcome of a round at the first loop of markup, which has a span. -/
def Yields (m : Markup) (s : Scope) (r : Except Error Text) (s' : Scope) : Prop :=
  ∃ front d rest inside after, find? .loop m = some (front, d, rest) ∧
    Markup.cutSpan d.tag rest = some (inside, after) ∧ expandAt front d rest s = (r, s')

theorem Yields.surrounded {m : Markup} {s s' : Scope} {r : Except Error Text} (h : Yields m s r s')
    {pre : Markup} (hpre : ∀ tag ∈ pre.tags, ofTag? .loop tag = none) (post : Markup) :
    Yields (pre ++ (m ++ post)) s (r.map fun t => pre.text ++ (t ++ post.text)) s' := by
  obtain ⟨front, d, rest, inside, after, hfind, hcut, hexpand⟩ := h
  have hcut' := Markup.cutSpan_append hcut post
  refine ⟨_, _, _, _, _, find?_surrounded hfind hpre post, hcut', ?_⟩
  unfold expandAt at hexpand ⊢
  rw [hcut] at hexpand
  rw [hcut']
  cases hparse : LoopExpr.parse? d.value with
  | none =>
    rw [hparse] at hexpand
    obtain ⟨rfl, rfl⟩ := Prod.mk.inj hexpand
    rfl
  | some expr =>
    rw [hparse] at hexpand
    dsimp only at hexpand ⊢
    split at hexpand
    · split at hexpand
      all_goals
        obtain ⟨rfl, rfl⟩ := Prod.mk.inj hexpand
        simp [Except.map]
    · obtain ⟨rfl, rfl⟩ := Prod.mk.inj hexpand
      rfl

end Directive

/-! ## One round -/

open Directive (Yields)

/-- What a round of expansion makes of a template: the fault of its evaluation, or a template that
stands for the same in a later scope. -/
inductive Template.Round (s : Scope) (T : Template) : Prop where
  | fault (source : Text) (f : LoopFault)
    (round : Yields T.markup s (.error (.loopSource f.item source f.kind)) s)
    (eval : T.eval s.env = .error f)
  | step (T' : Template) (s' : Scope) (round : Yields T.markup s (.ok T'.text) s') (fits : T'.Fits s')
    (extends_scope : s.Extends s') (eval : T'.eval s'.env = T.eval s.env)

namespace Template

namespace Round

variable {s : Scope} {T : Template}

/-- A round in a part of a template is one of the whole, if no loop comes before the part and the part
decides what the whole stands for. -/
theorem surrounded (h : T.Round s) (whole : Template → Template) (pre post : Markup)
    (hmarkup : ∀ T, (whole T).markup = pre ++ (T.markup ++ post))
    (hpre : ∀ tag ∈ pre.tags, Directive.ofTag? .loop tag = none)
    (hfits : ∀ {s' T'}, s.Extends s' → T'.Fits s' → (whole T').Fits s')
    (heval : ∀ {s' T'}, s.Extends s' → T'.eval s'.env = T.eval s.env →
      (whole T').eval s'.env = (whole T).eval s.env)
    (hfault : ∀ f, T.eval s.env = .error f → (whole T).eval s.env = .error f) : (whole T).Round s := by
  have htext : ∀ T', (whole T').text = pre.text ++ (T'.text ++ post.text) := fun T' => by
    rw [← text_markup, hmarkup, Markup.text_append, Markup.text_append, text_markup]
  cases h with
  | fault source f hround hf =>
    have := hround.surrounded hpre post
    rw [← hmarkup] at this
    exact .fault source f this (hfault f hf)
  | step T' s' hround hT' hs' he =>
    have := hround.surrounded hpre post
    rw [← hmarkup, Except.map, ← htext] at this
    exact .step (whole T') s' this (hfits hs' hT') hs' (heval hs' he)

theorem append_left {P : Template} (hP : P.Fits s) (hitems : P.items = []) (h : T.Round s) :
    (P.append T).Round s := by
  refine h.surrounded P.append P.markup [] (fun T => by simp)
    (ofTag?_loop_eq_none hP.valid hitems) (fun hs' hT' => (hP.mono hs').append hT') (fun hs' he => ?_)
    fun f hf => ?_
  · rw [eval_append, eval_append, hP.eval_eq hs', he]
  · obtain ⟨t, ht⟩ := exists_eval hitems s.env
    rw [eval_append, ht, hf]
    rfl

theorem append_right {R : Template} (hR : R.Fits s) (h : T.Round s) : (T.append R).Round s := by
  refine h.surrounded (·.append R) [] R.markup (fun T => by simp)
    (by simp) (fun hs' hT' => hT'.append (hR.mono hs')) (fun hs' he => ?_) fun f hf => ?_
  · rw [eval_append, eval_append, hR.eval_eq hs', he]
  · rw [eval_append, hf, joined_error]

theorem inside {o : Opening} (ho : o.Fits s) (hopens : o.tag.opensScope = true) (hloop : o.loop? = none)
    (h : T.Round s) : (element o T nil).Round s := by
  refine h.surrounded (element o · nil) [.lexeme o.tag] [.lexeme o.closingTag] (fun T => by simp [markup]) ?_
    (fun hs' hT' => ?_) (fun hs' he => ?_) fun f hf => ?_
  · simpa using Opening.ofTag?_loop_eq_none ho.valid hloop
  · exact fits_element_iff.2 ⟨ho.mono hs', hopens, hT', .nil _⟩
  · obtain ⟨heval, hholds⟩ := ho.eval_eq hs'
    rw [eval_element hloop, eval_element hloop, he, heval, hholds]
  · rw [eval_element hloop, hf]
    rfl

theorem loop {o : Opening} {item : Text} {source : Path} {X : Template} {content : Markup}
    (hloop : o.loop? = some (item, source)) (ho : o.isValid = true)
    (hmarkup : X.markup = .lexeme o.tag :: content) (hcut : Markup.cutSpan o.tag content = some (content, []))
    (hT : T.Fits s) (htext : T.text = (o.without .loop).tag.print ++ content.text)
    (heval : X.eval s.env = o.repeated s.env T.eval) : X.Round s := by
  obtain ⟨hitem, hsource⟩ := Opening.valid_of_loop? ho hloop
  obtain ⟨d, hd, htag, hvalue, hstripped⟩ := Opening.exists_ofTag?_loop ho hloop
  have hfind : Directive.find? .loop X.markup = some ([], d, content) := by
    rw [hmarkup, Directive.find?, Markup.cutAtTag, hd]
  have hspan : Markup.cutSpan d.tag content = some (content, []) := htag ▸ hcut
  have hround : ∀ {r s'}, Directive.expandAt [] d content s = (r, s') → Yields X.markup s r s' := fun h =>
    ⟨_, _, _, _, _, hfind, hspan, h⟩
  -- both sides look the source up in the scope before the round
  rw [Opening.repeated, hloop] at heval
  have hparse : LoopExpr.parse? d.value = some ⟨item, source.text⟩ := hvalue ▸ Clause.parse?_text hitem hsource
  dsimp only at heval
  split at heval
  · next values hvalues =>
    obtain ⟨Y, s', hcopies, hY, hs', hevals⟩ := exists_copies hT hitem values
    rw [htext, ← hstripped] at hcopies
    refine .step Y s' (hround ?_) hY hs' (hevals.trans heval.symm)
    rw [Directive.expandAt_of_array hparse hspan hvalues hcopies]
    simp
  · next hother =>
    exact .fault source.text ⟨item, .of (s.env source)⟩ (hround (Directive.expandAt_of_ne hparse hspan hother)) heval

theorem leaf {o : Opening} {loop : Text × Path} (hloop : o.loop? = some loop) (ho : o.Fits s)
    (hopens : o.tag.opensScope = false) : (leaf o nil).Round s := by
  have hcopy : (Template.leaf (o.without .loop) nil).Fits s :=
    fits_leaf_iff.2 ⟨ho.without .loop, by rw [Opening.opensScope_without ho.valid, hopens], .nil s⟩
  refine Round.loop hloop ho.valid rfl (cutSpan_leaf hopens []) hcopy rfl ?_
  rw [eval, eval, joined_nil_right]
  congr 1
  funext e
  rw [eval_leaf o.loop?_without, Opening.eval_without, Opening.holds_without_loop]

theorem element {o : Opening} {loop : Text × Path} (hloop : o.loop? = some loop) (ho : o.Fits s)
    (hopens : o.tag.opensScope = true) (hT : T.Fits s) : (element o T nil).Round s := by
  have hcopy : (Template.element (o.without .loop) T nil).Fits s :=
    fits_element_iff.2 ⟨ho.without .loop, by rw [Opening.opensScope_without ho.valid, hopens], hT, .nil s⟩
  refine Round.loop hloop ho.valid rfl (cutSpan_element hT.valid hopens []) hcopy ?_ ?_
  · simp [text, Opening.closingTag, Opening.without]
  · rw [eval, eval, joined_nil_right]
    congr 1
    funext e
    rw [eval_element o.loop?_without, Opening.eval_without, Opening.holds_without_loop]
    rfl

end Round

/-- A template that fits has no loop, or a round goes through. -/
theorem items_eq_nil_or_round {T : Template} {s : Scope} (h : T.Fits s) : T.items = [] ∨ T.Round s := by
  induction T with
  | nil => exact .inl rfl
  | bit b rest ih =>
    obtain ⟨hb, hrest⟩ := Fits.of_append (S := bit b nil) h
    refine (ih hrest).imp id fun hround => ?_
    exact hround.append_left (P := bit b nil) hb rfl
  | leaf o rest ih =>
    obtain ⟨ho, hopens, hrest⟩ := fits_leaf_iff.1 h
    have hleaf : (leaf o nil).Fits s := fits_leaf_iff.2 ⟨ho, hopens, .nil s⟩
    cases hloop : o.loop? with
    | none =>
      have hitems : (leaf o nil).items = [] := by simp [items, hloop]
      refine (ih hrest).imp (fun hrest => by simp [items, hloop, hrest]) fun hround => ?_
      exact hround.append_left hleaf hitems
    | some loop => exact .inr ((Round.leaf hloop ho hopens).append_right hrest)
  | element o inside rest ihInside ih =>
    obtain ⟨ho, hopens, hinside, hrest⟩ := fits_element_iff.1 h
    have helement : (element o inside nil).Fits s := fits_element_iff.2 ⟨ho, hopens, hinside, .nil s⟩
    cases hloop : o.loop? with
    | none =>
      rcases ihInside hinside with hnone | hround
      · have hitems : (element o inside nil).items = [] := by simp [items, hloop, hnone]
        refine (ih hrest).imp (fun hrest => by simp [items, hloop, hnone, hrest]) fun hround => ?_
        exact hround.append_left helement hitems
      · exact .inr ((hround.inside ho hopens hloop).append_right hrest)
    | some loop => exact .inr ((Round.element hloop ho hopens hinside).append_right hrest)

/-! ## Expansion -/

variable {T : Template} {s : Scope}

/-- However many rounds there are, expansion does not settle, or it ends in the fault of the evaluation, or
it leaves a template without loops that stands for the same. -/
theorem exists_expandRounds (h : T.Fits s) (n : Nat) :
    (Directive.expandRounds n T.text s).1 = .error .unsettledLoops ∨
      (∃ f source s', Directive.expandRounds n T.text s = (.error (.loopSource f.item source f.kind), s') ∧
        T.eval s.env = .error f) ∨
      ∃ (T' : Template) (s' : Scope), Directive.expandRounds n T.text s = (.ok T'.text, s') ∧ T'.Fits s' ∧
        T'.items = [] ∧ T'.eval s'.env = T.eval s.env := by
  induction n generalizing T s with
  | zero => exact .inl rfl
  | succ n ih =>
    rw [Directive.expandRounds, ofText_text h.valid]
    rcases items_eq_nil_or_round h with hitems | hround
    · have hnone : Directive.find? .loop T.markup = none :=
        Markup.cutAtTag_eq_none (ofTag?_loop_eq_none h.valid hitems)
      rw [hnone]
      exact .inr (.inr ⟨T, s, rfl, h, hitems, rfl⟩)
    · cases hround with
      | fault source f hround heval =>
        obtain ⟨front, d, rest, inside, after, hfind, -, hexpand⟩ := hround
        rw [hfind]
        dsimp only
        rw [hexpand]
        exact .inr (.inl ⟨f, source, s, rfl, heval⟩)
      | step T' s' hround hT' hs' heval =>
        obtain ⟨front, d, rest, inside, after, hfind, -, hexpand⟩ := hround
        rw [hfind]
        dsimp only
        rw [hexpand, ← heval]
        exact ih hT'

/-- Expansion of a valid template over data ends in the fault of its evaluation, or leaves a template without
loops that stands for the same. -/
theorem exists_expand (h : T.isValid = true) (data : Value) :
    (∃ f source s, Directive.expand T.text data = (.error (.loopSource f.item source f.kind), s) ∧
        T.eval (Env.ofData data) = .error f) ∨
      ∃ (T' : Template) (s : Scope), Directive.expand T.text data = (.ok T'.text, s) ∧ T'.isValid = true ∧
        T'.items = [] ∧ T'.eval s.env = T.eval (Env.ofData data) := by
  have hfits := fits_reserve h (.ofData data)
  have heval : T.eval ((Scope.ofData data).reserve T.text).env = T.eval (Env.ofData data) :=
    eval_congr fun p hp => Scope.env_reserve data T.text (isValid_of_mem_paths h hp)
  obtain ⟨-, hsettled, -⟩ := Directive.expandIn_settles (balanced_text h) (wellFormed_text h)
    ((Scope.ofData data).reserve T.text)
  rcases exists_expandRounds hfits
      (Directive.roundBound T.text ((Scope.ofData data).reserve T.text)) with
    hrounds | ⟨f, source, s, hrounds, hf⟩ | ⟨T', s, hrounds, hT', hitems, he⟩
  · exact absurd hrounds hsettled
  · exact .inl ⟨f, source, s, hrounds, heval ▸ hf⟩
  · exact .inr ⟨T', s, hrounds, hT'.valid, hitems, he.trans heval⟩

end Template
end HtmlTemplate
