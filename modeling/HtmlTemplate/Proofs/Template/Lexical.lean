import HtmlTemplate.Proofs.Template.Expansion
import HtmlTemplate.Proofs.Template.Selection

/-!
# Lexical scope

Expansion, selection and interpolation only edit texts, and pass items on through names that they make
up. On the text of a template they come to what the evaluator of its tree says, where the item of a loop is
known in the element of the loop and hides what went by its name outside (`Template.fill_text`).
-/

namespace HtmlTemplate

open Text (Writes)

theorem joined_eq_ok {r s : Except LoopFault Text} {t : Text} (h : joined r s = .ok t) :
    ∃ u v, r = .ok u ∧ s = .ok v ∧ t = u ++ v := by
  cases r with
  | error f => simp at h
  | ok u =>
    cases s with
    | error f => exact absurd h (by simp [joined, bind, Except.bind])
    | ok v => exact ⟨u, v, rfl, rfl, (Except.ok.inj h).symm⟩

/-! ## Interpolation -/

section Interpolation

variable {s : Scope}

theorem Bit.fill_value (s : Scope) (b : Bit) : b.fill (Placeholder.value s) = b.eval s.env := by
  cases b <;> rfl

theorem Chunk.fill_value {k : Chunk} (h : k.kind? = none) (s : Scope) :
    k.fill (Placeholder.value s) = k.eval s.env := by
  have hbit : Bit.fill (Placeholder.value s) = Bit.eval s.env := funext (Bit.fill_value s)
  cases k with
  | space c => rfl
  | plain blank name quote value => rw [fill, eval, hbit]
  | directive => simp [kind?] at h

namespace Opening

variable {o : Opening}

theorem kind?_eq_none_of_without (hloop : o.loop? = none) : ∀ k ∈ (o.without .guard).chunks, k.kind? = none := by
  intro k hk
  obtain ⟨hk, hguard⟩ := List.mem_filter.1 hk
  have hnone := loop?_eq_none_iff.1 hloop k hk
  cases hkind : k.kind? with
  | none => rfl
  | some kind => cases kind <;> simp_all

theorem writes_eval (h : o.isValid = true) (hkind : ∀ k ∈ o.chunks, k.kind? = none) (s : Scope) :
    Writes (Placeholder.interpolate s) o.tag.print (o.eval s.env) := by
  have hchunks := (isValid_iff.1 h).2.1
  have hlead : '\x7b' ∉ o.tag.lead := not_mem_lead h (by decide) (by decide)
  have htrail : '\x7b' ∉ o.trail ++ ['>'] := by
    rw [List.mem_append, not_or]
    exact ⟨not_mem_trail (by decide), by decide⟩
  have hbody : Writes (Placeholder.interpolate s) (o.chunks.flatMap Chunk.text) (o.chunks.flatMap (Chunk.eval s.env)) :=
    Writes.flatMap fun k hk => Chunk.fill_value (hkind k hk) s ▸ Chunk.writes_fill (hchunks k hk) _
  have hall := (Placeholder.writes_plain (Placeholder.value s) hlead).append
    (hbody.append (Placeholder.writes_plain (Placeholder.value s) htrail))
  rw [print_tag]
  have heval : o.eval s.env = o.tag.lead ++ (o.chunks.flatMap (Chunk.eval s.env) ++ (o.trail ++ ['>'])) := by
    rw [eval, Tag.print_eq]
    simp [Tag.lead, tag]
  rw [heval]
  exact hall

theorem writes_closing (h : o.isValid = true) (s : Scope) :
    Writes (Placeholder.interpolate s) o.closingTag.print o.closingTag.print :=
  Placeholder.writes_plain _ (not_mem_closingTag h (by decide) (by decide))

theorem writes_without (h : o.isValid = true) (hloop : o.loop? = none) (s : Scope) :
    Writes (Placeholder.interpolate s) (o.without .guard).tag.print (o.eval s.env) := by
  rw [← eval_without o .guard]
  exact writes_eval (isValid_without h .guard) (kind?_eq_none_of_without hloop) s

end Opening

theorem Template.writes_eval {T : Template} (h : T.isValid = true) (hitems : T.items = []) {out : Text}
    (heval : T.eval s.env = .ok out) : Writes (Placeholder.interpolate s) (T.select s.env).text out := by
  induction T generalizing out with
  | nil =>
    obtain rfl := Except.ok.inj heval
    exact .nil
  | bit b rest ih =>
    obtain ⟨hb, hrest⟩ := valid_bit h
    obtain ⟨t, u, ht, hu, rfl⟩ := joined_eq_ok heval
    obtain rfl := Except.ok.inj ht
    have hbit := Bit.writes_fill hb (Placeholder.value s)
    rw [Bit.fill_value] at hbit
    exact hbit.append (ih hrest hitems hu)
  | leaf o rest ih =>
    obtain ⟨ho, -, hrest⟩ := valid_leaf h
    obtain ⟨hloop, hitems⟩ := loop?_eq_none_of_items hitems
    obtain ⟨t, u, ht, hu, rfl⟩ := joined_eq_ok heval
    rw [Opening.repeated_of_none hloop] at ht
    obtain rfl := Except.ok.inj ht
    have hafter := ih hrest hitems hu
    rw [select]
    split
    · exact (Opening.writes_without ho hloop s).append hafter
    · exact hafter
  | element o inside rest ihInside ih =>
    obtain ⟨ho, -, hinside, hrest⟩ := valid_element h
    obtain ⟨hloop, hitems⟩ := loop?_eq_none_of_items hitems
    obtain ⟨hitemsInside, hitemsRest⟩ := List.append_eq_nil_iff.1 hitems
    obtain ⟨t, u, ht, hu, rfl⟩ := joined_eq_ok heval
    obtain ⟨v, hv⟩ := exists_eval hitemsInside s.env
    rw [Opening.repeated_of_none hloop, hv] at ht
    obtain rfl := Except.ok.inj ht
    have hafter := ih hrest hitemsRest hu
    rw [select]
    split
    · have hcontent := ihInside hinside hitemsInside hv
      have := (Opening.writes_without ho hloop s).append (hcontent.append ((Opening.writes_closing ho s).append hafter))
      simpa [text, Opening.closingTag, Opening.without] using this
    · exact hafter

end Interpolation

/-! ## The whole -/

namespace Template

/-- On the text of a valid template, over any data, the passes come to what the evaluator says: its text, or the
fault of a loop, which expansion reports with the item of the loop and what its source is. -/
theorem fill_text {T : Template} (h : T.isValid = true) (data : Value) :
    match T.eval (Env.ofData data) with
    | .ok out => ∃ t s u, Directive.expand T.text data = (.ok t, s) ∧ Directive.select s t = .ok u ∧
        Placeholder.interpolate s u = out
    | .error f => ∃ source s, Directive.expand T.text data = (.error (.loopSource f.item source f.kind), s) := by
  rcases exists_expand h data with ⟨f, source, s, hexpand, hf⟩ | ⟨T', s, hexpand, hvalid, hitems, heval⟩
  · rw [hf]
    exact ⟨source, s, hexpand⟩
  · obtain ⟨out, hout⟩ := exists_eval hitems s.env
    rw [← heval, hout]
    refine ⟨T'.text, s, (T'.select s.env).text, hexpand, select_text hvalid s, ?_⟩
    have hwrites := writes_eval hvalid hitems hout []
    have hnil : Placeholder.interpolate s [] = [] := by simp [Placeholder.interpolate, Pattern.replace]
    rwa [List.append_nil, hnil, List.append_nil] at hwrites

/-- A loop over a part of the outer item under the name of that item, and a guard on its element. Behind it
the name is that of the outer item again. -/
theorem fill_text_hidden :
    let hole : Template := .bit (.hole ⟨['x'], [['n']]⟩) .nil
    let outer : Opening := ⟨['u', 'l'], [.directive ' ' '"' (.loop ['x'] ⟨['x'], []⟩)], false⟩
    let inner : Opening := ⟨['l', 'i'], [.directive ' ' '"' (.loop ['x'] ⟨['x'], [['s']]⟩),
      .directive ' ' '\'' (.guard true ⟨['x'], [['o', 'f', 'f']]⟩)], false⟩
    let T : Template := .element outer (.element inner hole hole) .nil
    let item (n : Char) (members : List (Text × Value)) : Value := .object ((['n'], .string [n]) :: members)
    let data : Value := .object [(['x'], .array
      [item '1' [(['s'], .array [item '<' [], item '2' [(['o', 'f', 'f'], .bool true)]])],
        item '3' [(['s'], .array [])]])]
    T.text = ("<ul *for=\"x of x\"><li *for=\"x of x.s\" *if='!x.off'>\x7b\x7bx.n\x7d\x7d</li>" ++
        "\x7b\x7bx.n\x7d\x7d</ul>").toList ∧ T.isValid = true ∧
      ∃ t s u, Directive.expand T.text data = (.ok t, s) ∧ Directive.select s t = .ok u ∧
        Placeholder.interpolate s u = "<ul><li>&lt;</li>1</ul><ul>3</ul>".toList := by
  intro hole outer inner T item data
  have hvalid : T.isValid = true := by decide +kernel
  have heval : T.eval (Env.ofData data) = .ok "<ul><li>&lt;</li>1</ul><ul>3</ul>".toList := by decide +kernel
  have h := fill_text hvalid data
  rw [heval] at h
  exact ⟨by decide +kernel, hvalid, h⟩

end Template
end HtmlTemplate
