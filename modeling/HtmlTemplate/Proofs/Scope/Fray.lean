import HtmlTemplate.Proofs.Scope.Names

/-!
# Names that come together

When a piece of a text goes, the halves of a name may come together. A text frays at a beginning of a name if a
tag or a directive stands behind it (`Text.Frays`). Texts that are made by cutting out tags and directives and
by repeating elements neither spell a name nor fray at it, unless the text they were made from does
(`Text.Exposed.of_cut`, `Text.Exposed.of_copies`).
-/

namespace HtmlTemplate.Text

/-- Behind blanks, if there are any, stands what tags or directives begin with. -/
def Loose (t : Text) : Prop := (t.dropWhile isBlank).head? = some '<' ∨ (t.dropWhile isBlank).head? = some '*'

instance (t : Text) : Decidable (Loose t) := inferInstanceAs (Decidable (_ ∨ _))

/-- A word of the text is a beginning of a name, and behind it a tag or a directive may go. -/
def Frays (t name : Text) : Prop :=
  ∃ u c p v, t = u ++ c :: (p ++ v) ∧ isWord c = false ∧ p ≠ [] ∧ p <+: name ∧ Loose v

/-- Whether the text frays at the word behind its first character. -/
def fraysAt (name : Text) : Text → Bool
  | [] => false
  | c :: t => !isWord c && name.inits.any fun p => !p.isEmpty && p.isPrefixOf t && decide (Loose (t.drop p.length))

theorem frays_iff {t name : Text} : Frays t name ↔ t.tails.any (fraysAt name) = true := by
  simp only [List.any_eq_true, List.mem_tails]
  constructor
  · rintro ⟨u, c, p, v, rfl, hc, hp, hname, hloose⟩
    refine ⟨c :: (p ++ v), List.suffix_append _ _, ?_⟩
    simp only [fraysAt, hc, Bool.not_false, Bool.true_and, List.any_eq_true, List.mem_inits]
    exact ⟨p, hname, by simp [hp, hloose]⟩
  · rintro ⟨s, ⟨u, rfl⟩, hs⟩
    cases s with
    | nil => simp [fraysAt] at hs
    | cons c t =>
      simp only [fraysAt, Bool.and_eq_true, Bool.not_eq_true', List.any_eq_true, List.mem_inits] at hs
      obtain ⟨hc, p, hname, ⟨hp, hprefix⟩, hloose⟩ := hs
      obtain ⟨v, rfl⟩ := List.isPrefixOf_iff_prefix.1 hprefix
      rw [List.drop_left] at hloose
      exact ⟨u, c, p, v, rfl, hc, by simpa using hp, hname, of_decide_eq_true hloose⟩

instance (t name : Text) : Decidable (Frays t name) := decidable_of_iff _ frays_iff.symm

/-- What stands behind a beginning of a name ends the name, or may go. -/
def Ends (name p v : Text) : Prop := Loose v ∨ p = name ∧ ∃ d w, v = d :: w ∧ isWord d = false

/-- A text spells a name or frays at it. -/
def Exposed (t name : Text) : Prop :=
  ∃ u c p v, t = u ++ c :: (p ++ v) ∧ isWord c = false ∧ p ≠ [] ∧ p <+: name ∧ Ends name p v

theorem exposed_iff {t name : Text} (hne : name ≠ []) : Exposed t name ↔ Spells t name ∨ Frays t name := by
  constructor
  · rintro ⟨u, c, p, v, rfl, hc, hp, hname, hloose | ⟨rfl, d, w, rfl, hd⟩⟩
    · exact .inr ⟨u, c, p, v, rfl, hc, hp, hname, hloose⟩
    · exact .inl ⟨u, c, d, w, rfl, hc, hd⟩
  · rintro (⟨u, c, d, w, rfl, hc, hd⟩ | ⟨u, c, p, v, rfl, hc, hp, hname, hloose⟩)
    · exact ⟨u, c, name, d :: w, rfl, hc, hne, List.prefix_rfl, .inr ⟨rfl, d, w, rfl, hd⟩⟩
    · exact ⟨u, c, p, v, rfl, hc, hp, hname, .inl hloose⟩

/-! ## What may go -/

theorem loose_append (s t : Text) :
    Loose (s ++ t) ↔ if (s.dropWhile isBlank).isEmpty then Loose t else Loose s := by
  rw [Loose, List.dropWhile_append]
  split
  · rfl
  · next hne =>
    cases hs : s.dropWhile isBlank with
    | nil => simp [hs] at hne
    | cons c s' => simp [Loose, hs]

theorem Loose.append {s : Text} (h : Loose s) (t : Text) : Loose (s ++ t) := by
  rw [loose_append, if_neg]
  · exact h
  · intro hempty
    simp [Loose, List.isEmpty_iff.1 hempty] at h

theorem Ends.insert {name p s t : Text} (h : Ends name p (s ++ t)) {r : Text} (hr : Loose r) :
    Ends name p (s ++ (r ++ t)) := by
  rcases h with hloose | ⟨rfl, d, w, hd, hword⟩
  · rw [loose_append] at hloose
    refine .inl ((loose_append _ _).2 ?_)
    split
    · exact hr.append t
    · next hne => rwa [if_neg hne] at hloose
  · cases s with
    | nil => exact .inl (hr.append t)
    | cons c s =>
      obtain ⟨rfl, -⟩ := List.cons.inj hd
      exact .inr ⟨rfl, c, _, rfl, hword⟩

theorem Ends.exchange {name p s t : Text} (h : Ends name p (s ++ t)) (hs : s.getLast? = some '>') (t' : Text) :
    Ends name p (s ++ t') := by
  obtain ⟨s, rfl⟩ := List.getLast?_eq_some_iff.1 hs
  rcases h with hloose | ⟨rfl, d, w, hd, hword⟩
  · have hsolid : ((s ++ ['>']).dropWhile isBlank).isEmpty = false := by
      rw [List.dropWhile_append]
      split <;> simp_all [show isBlank '>' = false by decide]
    rw [loose_append, hsolid] at hloose
    exact .inl ((loose_append _ _).2 (by rw [hsolid]; exact hloose))
  · cases s with
    | nil =>
      obtain ⟨rfl, -⟩ := List.cons.inj hd
      exact .inr ⟨rfl, '>', _, rfl, hword⟩
    | cons c s =>
      obtain ⟨rfl, -⟩ := List.cons.inj hd
      exact .inr ⟨rfl, c, _, rfl, hword⟩

namespace Exposed

variable {name : Text}

/-- A text is exposed where it was before a piece went, or where the piece was. -/
theorem of_cut {front r back : Text} {e : Char} (hr : Loose r) (hlast : r.getLast? = some e)
    (he : isWord e = false) (h : Exposed (front ++ back) name) : Exposed (front ++ (r ++ back)) name := by
  obtain ⟨u, c, p, v, ht, hc, hp, hname, hends⟩ := h
  rcases List.append_eq_append_iff.1 ht with ⟨x, rfl, hback⟩ | ⟨x, hfront, hx⟩
  · exact ⟨front ++ (r ++ x), c, p, v, by simp [hback], hc, hp, hname, hends⟩
  · cases x with
    | nil =>
      rw [List.append_nil] at hfront
      rw [List.nil_append] at hx
      exact ⟨front ++ r, c, p, v, by simp [hx], hc, hp, hname, hends⟩
    | cons c' y =>
      obtain ⟨rfl, hpv⟩ := List.cons.inj hx
      rcases List.append_eq_append_iff.1 hpv with ⟨z, rfl, rfl⟩ | ⟨z, rfl, rfl⟩
      · exact ⟨u, c, p, z ++ (r ++ back), by simp [hfront], hc, hp, hname, hends.insert hr⟩
      · rcases y with _ | ⟨d, y⟩
        · -- The word begins where the piece ended.
          obtain ⟨r', rfl⟩ := List.getLast?_eq_some_iff.1 hlast
          exact ⟨front ++ r', e, z, v, by simp, he, hp, hname, hends⟩
        · exact ⟨u, c, d :: y, r ++ (z ++ v), by simp [hfront], hc, by simp,
            (List.prefix_append _ _).trans hname, .inl (hr.append _)⟩

theorem of_copy {front element back : Text} (hhead : element.head? = some '<')
    (hlast : element.getLast? = some '>') (hword : ∀ c ∈ name, isWord c = true)
    (h : Exposed (front ++ (element ++ (element ++ back))) name) :
    Exposed (front ++ (element ++ back)) name := by
  obtain ⟨u, c, p, v, ht, hc, hp, hname, hends⟩ := h
  have hwords : ∀ c ∈ p, isWord c = true := fun c hc => hword c (hname.subset hc)
  rw [← List.append_assoc front] at ht
  rcases List.append_eq_append_iff.1 ht with ⟨x, rfl, hback⟩ | ⟨x, hfront, hx⟩
  · exact ⟨front ++ x, c, p, v, by simp [hback], hc, hp, hname, hends⟩
  · cases x with
    | nil =>
      rw [List.nil_append] at hx
      exact ⟨front, c, p, v, by rw [hx], hc, hp, hname, hends⟩
    | cons c' y =>
      obtain ⟨rfl, hpv⟩ := List.cons.inj hx
      have hlast' : (c :: y).getLast? = some '>' := by
        have := congrArg List.getLast? hfront
        rw [List.getLast?_append, hlast, Option.some_or, List.getLast?_append_of_ne_nil _ (by simp)] at this
        exact this.symm
      have hne : y ≠ p := by
        rintro rfl
        rw [List.getLast?_cons_of_ne_nil hp] at hlast'
        exact absurd (hwords '>' (List.mem_of_getLast? hlast')) (by decide)
      rcases List.append_eq_append_iff.1 hpv with ⟨z, rfl, rfl⟩ | ⟨z, rfl, hz⟩
      · have hz : z.getLast? = some '>' := by
          cases z with
          | nil => exact absurd (List.append_nil p) hne
          | cons d z => simpa [List.getLast?_append, List.getLast?_cons] using hlast'
        refine ⟨u, c, p, z ++ back, ?_, hc, hp, hname, hends.exchange hz back⟩
        rw [← List.append_assoc front, hfront]
        simp
      · obtain ⟨tail, rfl⟩ := List.head?_eq_some_iff.1 hhead
        cases z with
        | nil => exact absurd (List.append_nil y).symm hne
        | cons d z =>
          obtain ⟨rfl, -⟩ := List.cons.inj hz
          exact absurd (hwords '<' (by simp)) (by decide)

/-- A text is exposed where it was before an element was repeated any number of times, or removed. -/
theorem of_copies {front element back : Text} (hhead : element.head? = some '<')
    (hlast : element.getLast? = some '>') (hword : ∀ c ∈ name, isWord c = true) {n : Nat}
    (h : Exposed (front ++ ((List.replicate n element).flatten ++ back)) name) :
    Exposed (front ++ (element ++ back)) name := by
  induction n with
  | zero =>
    have hloose : Loose element := by
      obtain ⟨tail, rfl⟩ := List.head?_eq_some_iff.1 hhead
      exact .inl rfl
    exact of_cut hloose hlast (by decide) h
  | succ n ih =>
    cases n with
    | zero => simpa using h
    | succ n =>
      refine ih ?_
      rw [List.replicate_succ, List.flatten_cons, List.append_assoc] at h ⊢
      rw [List.replicate_succ, List.flatten_cons, List.append_assoc] at h
      exact of_copy hhead hlast hword h

end Exposed
end HtmlTemplate.Text
