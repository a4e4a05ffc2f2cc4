import HtmlTemplate.Proofs.Directive.Basic
import HtmlTemplate.Proofs.Directive.Expansion
import HtmlTemplate.Proofs.Markup.Span
import HtmlTemplate.Proofs.Scope.Calls
import HtmlTemplate.Proofs.Scope.Fray

/-!
# Names in texts that directives are taken from

Expansion and selection cut directives and elements out of a text and repeat elements. Where no item is referred
to, that is all they do, and so they leave no text that is exposed at a name unless the text they are given is
(`Directive.exposed_of_rounds`, `Directive.exposed_of_select`).
-/

namespace HtmlTemplate.Directive

open Text (Exposed Loose)

variable {kind : DirectiveKind} {d : Directive} {name : Text}

/-! ## Cutting a directive out -/

theorem loose_attr (hd : ofTag? kind d.tag = some d) : Loose (d.attr.print kind.attributeName) := by
  have hblank := (valid_of_ofTag? hd).blank
  obtain ⟨name, hname, -⟩ := attributeName_eq kind
  rw [Loose, Attribute.print_eq, hname, List.dropWhile_cons_of_pos hblank]
  exact .inr rfl

theorem getLast?_attr (d : Directive) (kind : DirectiveKind) :
    (d.attr.print kind.attributeName).getLast? = some d.attr.quoted.quote := by
  simp [Attribute.print_eq, List.getLast?_append, List.getLast?_cons]

theorem exposed_of_stripped (hd : ofTag? kind d.tag = some d) {front back : Text}
    (h : Exposed (front ++ (d.stripped ++ back)) name) : Exposed (front ++ (d.tag.print ++ back)) name := by
  have hquote : Text.isWord d.attr.quoted.quote = false := Text.not_isWord_of_isQuote (valid_of_ofTag? hd).quote
  have hsplit : Exposed ((front ++ d.front) ++ (d.back ++ back)) name := by simpa [stripped] using h
  have hcut := hsplit.of_cut (loose_attr hd) (getLast?_attr d kind) hquote
  rw [(print_tag_of_ofTag? hd).2.2]
  simpa using hcut

theorem head?_stripped (hd : ofTag? kind d.tag = some d) : d.stripped.head? = some '<' := by
  have hprint := congrArg List.head? (print_tag_of_ofTag? hd).2.2
  rw [Tag.head?_print] at hprint
  cases hfront : d.front with
  | nil =>
    have hblank := (valid_of_ofTag? hd).blank
    rw [hfront, List.nil_append, Attribute.print_eq] at hprint
    rw [← Option.some.inj hprint] at hblank
    exact absurd hblank (by decide)
  | cons c front => simpa [hfront, stripped] using hprint.symm

theorem getLast?_stripped (hd : ofTag? kind d.tag = some d) {inside : Text}
    (h : (d.tag.print ++ inside).getLast? = some '>') : (d.stripped ++ inside).getLast? = some '>' := by
  rw [(print_tag_of_ofTag? hd).2.2] at h
  cases hback : d.back ++ inside with
  | nil =>
    have hquote := (valid_of_ofTag? hd).quote
    rw [List.append_assoc, hback, List.append_nil, List.getLast?_append, getLast?_attr, Option.some_or] at h
    rw [Option.some.inj h] at hquote
    exact absurd hquote (by decide)
  | cons c back =>
    rw [List.append_assoc, hback, List.getLast?_append_of_ne_nil _ (by simp)] at h
    rw [stripped, List.append_assoc, hback, List.getLast?_append_of_ne_nil _ (by simp), h]

theorem exposed_of_dropped {tag : Tag} {m inside after : Markup} (hspan : Markup.cutSpan tag m = some (inside, after))
    {front : Text} (h : Exposed (front ++ after.text) name) : Exposed (front ++ (tag.print ++ m.text)) name := by
  have hcut := h.of_cut (.inl rfl) (Markup.getLast?_text_of_cutSpan hspan) (by decide)
  rw [Markup.eq_append_of_cutSpan hspan, Markup.text_append]
  simpa using hcut

/-! ## Selection -/

/-- Selection leaves a text exposed only where it finds one exposed. -/
theorem exposed_of_select {s : Scope} {t u : Text} (h : select s t = .ok u) (hu : Exposed u name) :
    Exposed t name := by
  fun_induction select s t with
  | case1 t hfind => exact Except.ok.inj h ▸ hu
  | case2 t front d rest hfind hspan => simp at h
  | case3 t front d rest hfind inside after hspan hholds ih =>
    rw [text_of_find? hfind]
    exact exposed_of_stripped (ofTag?_of_find? hfind) (by simpa using ih h)
  | case4 t front d rest hfind inside after hspan hholds ih =>
    rw [text_of_find? hfind]
    exact exposed_of_dropped hspan (ih h)

/-! ## Loops whose items nothing refers to -/

/-- Whether retargeting leaves a fragment as it is for each of the names that the values get. -/
def untouched (item fragment : Text) : List Value → Scope → Bool
  | [], _ => true
  | value :: values, s =>
    decide (Reference.retarget item (s.bind value).1 fragment = .ok fragment) &&
      untouched item fragment values (s.bind value).2

/-- Whether nothing refers to the item of the first loop of a text, if there is one. -/
def unreferenced (p : Text × Scope) : Bool :=
  match find? .loop (Markup.ofText p.1) with
  | none => true
  | some (_, d, rest) =>
    match LoopExpr.parse? d.value, Markup.cutSpan d.tag rest with
    | some expr, some (inside, _) =>
      match p.2.lookup? expr.source with
      | some (.array items) => untouched expr.item (d.stripped ++ inside.text) items p.2
      | _ => true
    | _, _ => true

theorem copies_of_untouched {item fragment : Text} {values : List Value} {s : Scope}
    (h : untouched item fragment values s = true) :
    (copies item fragment values s).1 = .ok (List.replicate values.length fragment).flatten := by
  induction values generalizing s with
  | nil => rfl
  | cons value values ih =>
    obtain ⟨hvalue, hvalues⟩ := Bool.and_eq_true_iff.1 h
    have hrest := ih hvalues
    rw [copies]
    simp only [of_decide_eq_true hvalue]
    split
    · next he => simp [he] at hrest
    · next hrest' =>
      rw [hrest'] at hrest
      obtain rfl := Except.ok.inj hrest
      rfl

/-- A round at a loop whose item nothing refers to repeats its element without the directive. -/
theorem eq_of_round {p q : Text × Scope} (h : Round p q) (hp : unreferenced p = true) :
    ∃ front d rest inside after n, find? .loop (Markup.ofText p.1) = some (front, d, rest) ∧
      Markup.cutSpan d.tag rest = some (inside, after) ∧
      q.1 = front.text ++ ((List.replicate n (d.stripped ++ inside.text)).flatten ++ after.text) := by
  obtain ⟨front, d, rest, hfind, hexpand⟩ := h
  obtain ⟨expr, inside, after, items, expanded, hexpr, hspan, hitems, hcopies, htext⟩ := exists_of_expandAt hexpand
  simp only [unreferenced, hfind, hexpr, hspan, hitems] at hp
  have hexpanded := copies_of_untouched hp
  rw [hcopies] at hexpanded
  exact ⟨front, d, rest, inside, after, items.length, hfind, hspan, by rw [htext, Except.ok.inj hexpanded]⟩

/-- A round leaves a text exposed only where it finds one exposed. -/
theorem exposed_of_round {p q : Text × Scope} (h : Round p q) (hp : unreferenced p = true)
    (hword : ∀ c ∈ name, Text.isWord c = true) (hq : Exposed q.1 name) : Exposed p.1 name := by
  obtain ⟨front, d, rest, inside, after, n, hfind, hspan, htext⟩ := eq_of_round h hp
  have hd := ofTag?_of_find? hfind
  have hhead : (d.stripped ++ inside.text).head? = some '<' := by
    rw [List.head?_append, head?_stripped hd, Option.some_or]
  have hlast := getLast?_stripped hd (Markup.getLast?_text_of_cutSpan hspan)
  rw [htext] at hq
  have hone := hq.of_copies hhead hlast hword
  rw [List.append_assoc] at hone
  rw [text_of_find? hfind, Markup.eq_append_of_cutSpan hspan, Markup.text_append]
  exact exposed_of_stripped hd hone

/-- Rounds leave a text exposed only where they find one exposed. -/
theorem exposed_of_rounds {n : Nat} {p q : Text × Scope} (h : Rounds n p q)
    (hunreferenced : ∀ m r, Rounds m p r → unreferenced r = true) (hword : ∀ c ∈ name, Text.isWord c = true)
    (hq : Exposed q.1 name) : Exposed p.1 name := by
  induction h with
  | refl p => exact hq
  | step hround _ ih =>
    have hlater := ih (fun m r hr => hunreferenced (m + 1) r (.step hround hr)) hq
    exact exposed_of_round hround (hunreferenced 0 _ (.refl _)) hword hlater

/-- Whether a test holds in every round, checked round by round. -/
def throughout (test : Text × Scope → Bool) : (rounds : Nat) → Text × Scope → Bool
  | 0, _ => false
  | rounds + 1, p =>
    test p &&
      match find? .loop (Markup.ofText p.1) with
      | none => true
      | some (front, d, rest) =>
        match expandAt front d rest p.2 with
        | (.error _, _) => true
        | (.ok t, s) => throughout test rounds (t, s)

theorem of_throughout {test : Text × Scope → Bool} {rounds n : Nat} {p q : Text × Scope}
    (h : throughout test rounds p = true) (hrounds : Rounds n p q) : test q = true := by
  induction hrounds generalizing rounds with
  | refl p =>
    cases rounds with
    | zero => simp [throughout] at h
    | succ rounds => exact (Bool.and_eq_true_iff.1 h).1
  | step hround _ ih =>
    cases rounds with
    | zero => simp [throughout] at h
    | succ rounds =>
      obtain ⟨front, d, rest, hfind, hexpand⟩ := hround
      have hnext := (Bool.and_eq_true_iff.1 h).2
      simp only [hfind, hexpand] at hnext
      exact ih hnext

/-! ## Rounds of a run -/

theorem run_of_copies {item fragment t : Text} {values : List Value} {s s' : Scope}
    (h : copies item fragment values s = (.ok t, s')) : s' = s.run (values.map .bind) := by
  induction values generalizing s t with
  | nil => exact (Prod.mk.inj h).2.symm
  | cons value values ih =>
    simp only [copies] at h
    split at h
    · simp at h
    · split at h
      · simp at h
      · next hrest =>
        obtain ⟨-, rfl⟩ := Prod.mk.inj h
        exact ih hrest

theorem exists_run_of_rounds {n : Nat} {p q : Text × Scope} (h : Rounds n p q) :
    ∃ values : List Value, q.2 = p.2.run (values.map .bind) := by
  induction h with
  | refl p => exact ⟨[], rfl⟩
  | step hround _ ih =>
    obtain ⟨later, hlater⟩ := ih
    obtain ⟨front, d, rest, -, hexpand⟩ := hround
    obtain ⟨_, _, _, items, _, -, -, -, hcopies, -⟩ := exists_of_expandAt hexpand
    exact ⟨items ++ later, by rw [hlater, run_of_copies hcopies, List.map_append, Scope.run_append]⟩

theorem exists_rounds_of_expandRounds {rounds : Nat} {t u : Text} {s s' : Scope}
    (h : expandRounds rounds t s = (.ok u, s')) : ∃ n, Rounds n (t, s) (u, s') := by
  induction rounds generalizing t s with
  | zero => simp [expandRounds] at h
  | succ rounds ih =>
    rw [expandRounds] at h
    split at h
    · obtain ⟨ht, rfl⟩ := Prod.mk.inj h
      obtain rfl := Except.ok.inj ht
      exact ⟨0, .refl _⟩
    · next front d rest hfind =>
      split at h
      · simp at h
      · next v s₁ hround =>
        obtain ⟨n, hn⟩ := ih h
        exact ⟨n + 1, .step ⟨front, d, rest, hfind, hround⟩ hn⟩

end HtmlTemplate.Directive
