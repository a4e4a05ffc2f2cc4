import HtmlTemplate.Proofs.Markup.Partner
import HtmlTemplate.Proofs.Markup.Scan

/-!
# Scanning from an offset

A scan may begin between any two characters of a text, and its tokens keep their offsets in the whole text.
They follow each other, and each is a tag of the text, with one `>`, at its end (`Markup.Token.StandsIn`). Where
a scan begins inside no token of the whole text, it finds the tokens of the whole text from there on, and no
others (`Markup.tokensFrom_resumed`): the scan of the whole text passes that offset between two pieces
(`Markup.exists_cut`), and what is left of a scan is a scan of what is left. The end of a token is such an
offset, so that spans and directives may be looked for from there (`Markup.exists_tokensFrom_stop`).
-/

namespace HtmlTemplate

/-! ## Offsets between characters -/

namespace Text

/-- An offset between two characters of a text, or at either end of it. -/
def IsBoundary (t : Text) (n : Nat) : Prop := ∃ front, front <+: t ∧ byteLength front = n

/-- The characters of a text between two offsets. -/
def slice (t : Text) (start stop : Nat) : Text := (t.take (t.charsInBytes stop)).drop (t.charsInBytes start)

theorem isBoundary_append (s t : Text) : (s ++ t).IsBoundary (byteLength s) := ⟨s, List.prefix_append s t, rfl⟩

theorem isBoundary_iff {t : Text} {n : Nat} : t.IsBoundary n ↔ byteLength (t.take (t.charsInBytes n)) = n := by
  constructor
  · rintro ⟨front, ⟨rest, rfl⟩, rfl⟩
    rw [charsInBytes_byteLength, List.take_left]
  · exact fun h => ⟨_, List.take_prefix _ t, h⟩

instance (t : Text) (n : Nat) : Decidable (t.IsBoundary n) := decidable_of_iff _ isBoundary_iff.symm

theorem slice_append (front s rest : Text) :
    (front ++ (s ++ rest)).slice (byteLength front) (byteLength front + byteLength s) = s := by
  have hstop : (front ++ (s ++ rest)).charsInBytes (byteLength front + byteLength s) = (front ++ s).length := by
    rw [← byteLength_append, ← List.append_assoc, charsInBytes_byteLength]
  rw [slice, charsInBytes_byteLength, hstop, ← List.append_assoc, List.take_left, List.drop_left]

theorem prefix_of_byteLength_le {s s' t : Text} (h : s <+: t) (h' : s' <+: t)
    (hle : byteLength s ≤ byteLength s') : s <+: s' := by
  rcases List.prefix_or_prefix_of_prefix h h' with hprefix | ⟨x, rfl⟩
  · exact hprefix
  · rw [byteLength_append] at hle
    have hx : x = [] := byteLength_eq_zero_iff.1 (by omega)
    rw [hx, List.append_nil]

end Text

theorem Tag.byteLength_print_pos (tag : Tag) : 0 < Text.byteLength tag.print := by
  rw [print, Text.byteLength_cons]
  have := Char.utf8Size_pos '<'
  omega

namespace Markup

open Text (byteLength)

/-! ## The tokens of a scan -/

theorem le_of_mem_locate {token : Token} {start : Nat} {m : Markup} (h : token ∈ locate start m) :
    start ≤ token.start := by
  obtain ⟨f, r, -, hstart, -⟩ := exists_of_mem_locate h
  omega

theorem start_lt_of_mem_locate {token : Token} {start : Nat} {m : Markup} (h : token ∈ locate start m) :
    token.start < start + byteLength m.text := by
  obtain ⟨f, r, rfl, hstart, -⟩ := exists_of_mem_locate h
  have hpos := token.tag.byteLength_print_pos
  rw [text_append, text_tag, Text.byteLength_append, Text.byteLength_append]
  omega

theorem pairwise_locate (start : Nat) (m : Markup) :
    (locate start m).Pairwise fun token later => token.stop ≤ later.start := by
  induction m generalizing start with
  | nil => exact .nil
  | cons piece m ih =>
    cases piece with
    | char c => exact ih _
    | lexeme tag => exact .cons (fun later hlater => le_of_mem_locate hlater) (ih _)

/-- A tag stands in `t` at the offsets of a token, from byte `start` on. -/
structure Token.StandsIn (t : Text) (start : Nat) (token : Token) : Prop where
  start_le : start ≤ token.start
  start_lt_stop : token.start < token.stop
  stop_le : token.stop ≤ byteLength t
  isBoundary_start : t.IsBoundary token.start
  isBoundary_stop : t.IsBoundary token.stop
  slice_eq : t.slice token.start token.stop = token.tag.print
  proper : token.tag.Proper
  /-- The last byte is a `>`. -/
  bracket : t.slice (token.stop - 1) token.stop = ['>']
  /-- There is no other one. -/
  not_mem : '>' ∉ t.slice token.start (token.stop - 1)

theorem standsIn_append {tag : Tag} (htag : tag.Proper) {start : Nat} {front : Text}
    (hstart : start ≤ byteLength front) (rest : Text) :
    Token.StandsIn (front ++ (tag.print ++ rest)) start
      ⟨tag, byteLength front, byteLength front + byteLength tag.print⟩ := by
  obtain ⟨w, hprint, hw⟩ : ∃ w, tag.print = w ++ ['>'] ∧ '>' ∉ w :=
    ⟨_, tag.print_eq, htag.not_mem_front⟩
  have hlength : byteLength tag.print = byteLength w + 1 := by
    rw [hprint, Text.byteLength_append]
    rfl
  have hlast : byteLength front + byteLength tag.print - 1 = byteLength front + byteLength w := by
    omega
  refine
    { start_le := hstart
      start_lt_stop := Nat.lt_add_of_pos_right tag.byteLength_print_pos
      stop_le := ?_
      isBoundary_start := Text.isBoundary_append _ _
      isBoundary_stop := ?_
      slice_eq := Text.slice_append _ _ _
      proper := htag
      bracket := ?_
      not_mem := ?_ }
  · simp only [Text.byteLength_append]
    omega
  · have hstop := Text.isBoundary_append (front ++ tag.print) rest
    rwa [Text.byteLength_append, List.append_assoc] at hstop
  · have hslice := Text.slice_append (front ++ w) ['>'] rest
    rw [List.append_assoc, ← List.append_assoc w, ← hprint, Text.byteLength_append] at hslice
    rw [hlast, hlength]
    exact hslice
  · rw [hlast, hprint, List.append_assoc w, Text.slice_append]
    exact hw

theorem Token.StandsIn.exists_append {t : Text} {start : Nat} {token : Token} (h : token.StandsIn t start) :
    ∃ front rest, t = front ++ (token.tag.print ++ rest) ∧ token.start = byteLength front ∧
      token.stop = token.start + byteLength token.tag.print := by
  obtain ⟨front, hfront, hstart⟩ := h.isBoundary_start
  obtain ⟨whole, ⟨rest, rfl⟩, hstop⟩ := h.isBoundary_stop
  have hle : byteLength front ≤ byteLength whole := by
    have := h.start_lt_stop
    omega
  obtain ⟨s, rfl⟩ := Text.prefix_of_byteLength_le hfront (List.prefix_append whole rest) hle
  have hs : s = token.tag.print := by
    rw [← h.slice_eq, ← hstart, ← hstop, Text.byteLength_append, List.append_assoc, Text.slice_append]
  refine ⟨front, rest, by rw [hs, List.append_assoc], hstart.symm, ?_⟩
  rw [← hstop, ← hstart, Text.byteLength_append, hs]

theorem tokensFrom_append (s u : Text) : tokensFrom (s ++ u) (byteLength s) = locate (byteLength s) (ofText u) := by
  rw [tokensFrom, Text.drop_charsInBytes]

theorem pairwise_tokensFrom (t : Text) (start : Nat) :
    (tokensFrom t start).Pairwise fun token later => token.stop ≤ later.start := pairwise_locate _ _

theorem standsIn_of_mem_tokensFrom {t : Text} {start : Nat} (hstart : t.IsBoundary start) {token : Token}
    (h : token ∈ tokensFrom t start) : token.StandsIn t start := by
  obtain ⟨s, ⟨u, rfl⟩, rfl⟩ := hstart
  rw [tokensFrom_append] at h
  obtain ⟨f, r, hm, htokenStart, htokenStop⟩ := exists_of_mem_locate h
  have hproper : token.tag.Proper := proper_of_mem_tags (t := u) (by simp [hm])
  have hu : u = f.text ++ (token.tag.print ++ r.text) := by
    rw [← text_ofText u, hm, text_append, text_tag]
  have hle : byteLength s ≤ byteLength (s ++ f.text) := by simp
  have hstands := standsIn_append hproper hle r.text
  rw [Text.byteLength_append, ← htokenStart, ← htokenStop, List.append_assoc, ← hu] at hstands
  exact hstands

/-! ## Where a scan may be resumed -/

/-- An offset lies behind the first byte of a token and before its end. -/
def Token.Encloses (token : Token) (n : Nat) : Prop := token.start < n ∧ n < token.stop

instance (token : Token) (n : Nat) : Decidable (token.Encloses n) := inferInstanceAs (Decidable (_ ∧ _))

/-- Markup may be cut wherever its text may, except inside a tag. -/
theorem exists_cut {m : Markup} {start : Nat} {s u : Text} (h : m.text = s ++ u)
    (hfree : ∀ token ∈ locate start m, ¬ token.Encloses (start + byteLength s)) :
    ∃ f r : Markup, m = f ++ r ∧ f.text = s := by
  induction m generalizing start s with
  | nil => exact ⟨[], [], rfl, (List.append_eq_nil_iff.1 h.symm).1.symm⟩
  | cons piece m ih =>
    cases s with
    | nil => exact ⟨[], piece :: m, rfl, rfl⟩
    | cons c s =>
      cases piece with
      | char d =>
        obtain ⟨rfl, hm⟩ := List.cons.inj h
        obtain ⟨f, r, rfl, rfl⟩ := ih hm fun token htoken => by
          have hout := hfree token htoken
          rwa [Text.byteLength_cons, ← Nat.add_assoc] at hout
        exact ⟨.char d :: f, r, rfl, rfl⟩
      | lexeme tag =>
        rw [text_tag] at h
        rcases List.append_eq_append_iff.1 h with ⟨s', hs, hm⟩ | ⟨x, hx, -⟩
        · rw [hs] at hfree ⊢
          obtain ⟨f, r, rfl, rfl⟩ := ih hm fun token htoken => by
            have hout := hfree token (List.mem_cons_of_mem _ htoken)
            rwa [Text.byteLength_append, ← Nat.add_assoc] at hout
          exact ⟨.lexeme tag :: f, r, rfl, rfl⟩
        · cases x with
          | nil => exact ⟨[.lexeme tag], m, rfl, by simpa using hx⟩
          | cons d x =>
            -- the cut is behind `c` and before `d`, both of which belong to the tag
            refine absurd ?_ (hfree ⟨tag, start, start + byteLength tag.print⟩ (List.mem_cons_self ..))
            have hc := c.utf8Size_pos
            have hd := d.utf8Size_pos
            simp only [Token.Encloses, hx, Text.byteLength_append, Text.byteLength_cons]
            omega

theorem tokensFrom_eq_append {s u : Text} {f r : Markup} (h : ofText u = f ++ r) :
    tokensFrom (s ++ u) (byteLength s) =
      locate (byteLength s) f ++ tokensFrom (s ++ u) (byteLength s + byteLength f.text) := by
  have hu : u = f.text ++ r.text := by rw [← text_ofText u, h, text_append]
  have hrest := tokensFrom_append (s ++ f.text) r.text
  rw [ofText_text_of_append h, Text.byteLength_append, List.append_assoc, ← hu] at hrest
  rw [tokensFrom_append, h, locate_append, hrest]

/-- Behind each of its tokens a scan goes on as if it began there. -/
theorem exists_tokensFrom_stop {t : Text} {start : Nat} (hstart : t.IsBoundary start) {token : Token}
    (h : token ∈ tokensFrom t start) :
    ∃ before, tokensFrom t start = before ++ token :: tokensFrom t token.stop := by
  obtain ⟨s, ⟨u, rfl⟩, rfl⟩ := hstart
  have hlocate := h
  rw [tokensFrom_append] at hlocate
  obtain ⟨f, r, hm, htokenStart, htokenStop⟩ := exists_of_mem_locate hlocate
  have hcut : ofText u = (f ++ [.lexeme token.tag]) ++ r := by simp [hm]
  have htoken : locate (byteLength s) (f ++ [.lexeme token.tag]) = locate (byteLength s) f ++ [token] := by
    rw [locate_append, locate, locate, ← htokenStart, ← htokenStop]
  have hstop : byteLength s + byteLength (f ++ [.lexeme token.tag] : Markup).text = token.stop := by
    rw [htokenStop, htokenStart, text_append, text_tag, text_nil, List.append_nil, Text.byteLength_append,
      Nat.add_assoc]
  refine ⟨locate (byteLength s) f, ?_⟩
  rw [tokensFrom_eq_append hcut, htoken, hstop, List.append_assoc, List.singleton_append]

theorem not_encloses_of_mem_tokensFrom {t : Text} {start : Nat} (hstart : t.IsBoundary start)
    {token other : Token} (h : token ∈ tokensFrom t start) (hother : other ∈ tokensFrom t start) :
    ¬ other.Encloses token.start := by
  have hlt := (standsIn_of_mem_tokensFrom hstart h).start_lt_stop
  have hstop := (standsIn_of_mem_tokensFrom hstart h).isBoundary_stop
  obtain ⟨before, hscan⟩ := exists_tokensFrom_stop hstart h
  have horder := pairwise_tokensFrom t start
  rw [hscan] at hother horder
  rintro ⟨hbehind, hahead⟩
  rcases List.mem_append.1 hother with hbefore | hrest
  · have := (List.pairwise_append.1 horder).2.2 other hbefore token (List.mem_cons_self ..)
    omega
  · rcases List.mem_cons.1 hrest with rfl | hlater
    · omega
    · have := (standsIn_of_mem_tokensFrom hstop hlater).start_le
      omega

/-- A tag that stands in a text is found by a scan, unless it begins inside a token that is. -/
theorem mem_tokensFrom_of_standsIn {t : Text} {start : Nat} (hstart : t.IsBoundary start) {token : Token}
    (h : token.StandsIn t start) (hfree : ∀ other ∈ tokensFrom t start, ¬ other.Encloses token.start) :
    token ∈ tokensFrom t start := by
  obtain ⟨s, hs, rfl⟩ := hstart
  obtain ⟨front, rest, rfl, htokenStart, htokenStop⟩ := h.exists_append
  have hle : byteLength s ≤ byteLength front := htokenStart ▸ h.start_le
  obtain ⟨s', rfl⟩ := Text.prefix_of_byteLength_le hs (List.prefix_append front _) hle
  rw [List.append_assoc, tokensFrom_append] at hfree ⊢
  rw [htokenStart, Text.byteLength_append] at hfree
  obtain ⟨f, r, hm, rfl⟩ := exists_cut (text_ofText _) hfree
  have hr : r = .lexeme token.tag :: ofText rest := by
    have htext := congrArg text hm
    rw [text_ofText, text_append] at htext
    rw [← ofText_text_of_append hm, ← List.append_cancel_left htext]
    exact ofText_of_read (h.proper.read_print rest)
  rw [hm, hr, locate_append, locate, ← Text.byteLength_append, ← htokenStart, ← htokenStop]
  exact List.mem_append_right _ (List.mem_cons_self ..)

/-- A scan that begins inside no token of the whole text finds the tokens of the whole text from there on. The
tokens of any scan follow each other, and they are the tags that stand in the text from where the scan begins,
except those that begin inside one of them. -/
theorem tokensFrom_resumed {t : Text} {start : Nat} (hstart : t.IsBoundary start) :
    ((∀ token ∈ tokensFrom t 0, ¬ token.Encloses start) →
        tokensFrom t start = (tokensFrom t 0).filter fun token => start ≤ token.start) ∧
      (tokensFrom t start).Pairwise (fun token later => token.stop ≤ later.start) ∧
      ∀ token, token ∈ tokensFrom t start ↔
        token.StandsIn t start ∧ ∀ other ∈ tokensFrom t start, ¬ other.Encloses token.start := by
  refine ⟨fun hfree => ?_, pairwise_tokensFrom t start, fun token => ⟨fun h => ?_, fun h => ?_⟩⟩
  · obtain ⟨s, ⟨u, rfl⟩, rfl⟩ := hstart
    have hout : ∀ token ∈ locate 0 (ofText (s ++ u)), ¬ token.Encloses (0 + byteLength s) := by
      rwa [tokensFrom_zero, ← Nat.zero_add (byteLength s)] at hfree
    obtain ⟨f, r, hm, rfl⟩ := exists_cut (text_ofText (s ++ u)) hout
    have hscan := tokensFrom_eq_append (s := []) hm
    simp only [List.nil_append, Text.byteLength_nil, Nat.zero_add] at hscan
    have hbefore : (locate 0 f).filter (fun token => byteLength f.text ≤ token.start) = [] := by
      refine List.filter_eq_nil_iff.2 fun token htoken => ?_
      have := start_lt_of_mem_locate htoken
      simp only [decide_eq_true_eq]
      omega
    have hbehind : (tokensFrom (f.text ++ u) (byteLength f.text)).filter
        (fun token => byteLength f.text ≤ token.start) = tokensFrom (f.text ++ u) (byteLength f.text) := by
      refine List.filter_eq_self.2 fun token htoken => ?_
      exact decide_eq_true (standsIn_of_mem_tokensFrom (Text.isBoundary_append _ _) htoken).start_le
    rw [hscan, List.filter_append, hbefore, hbehind, List.nil_append]
  · exact ⟨standsIn_of_mem_tokensFrom hstart h, fun other => not_encloses_of_mem_tokensFrom hstart h⟩
  · exact mem_tokensFrom_of_standsIn hstart h.1 h.2

/-- The scan is resumed in the middle of `<b_>`, which is no tag, behind a tag with a `<` of its own. -/
theorem tokensFrom_resumed_lookalike :
    let t : Text := "é<p title='<b'>ü<b_><br/>x</P>".toList
    t.IsBoundary 19 ∧ (∀ token ∈ tokensFrom t 0, ¬ token.Encloses 19) ∧
      tokensFrom t 19 = (tokensFrom t 0).filter (fun token => 19 ≤ token.start) ∧
      (tokensFrom t 19).Pairwise (fun token later => token.stop ≤ later.start) ∧
      ∀ token, token ∈ tokensFrom t 19 ↔
        token.StandsIn t 19 ∧ ∀ other ∈ tokensFrom t 19, ¬ other.Encloses token.start := by
  intro t
  have hstart : t.IsBoundary 19 := by decide +kernel
  have hfree : ∀ token ∈ tokensFrom t 0, ¬ token.Encloses 19 := by decide +kernel
  obtain ⟨hresume, horder, hfound⟩ := tokensFrom_resumed hstart
  exact ⟨hstart, hfree, hresume hfree, horder, hfound⟩

/-- Inside a tag, a scan may find what is no token of the whole text. -/
example :
    tokensFrom "<p <b>".toList 0 = [⟨⟨false, ['p'], " <b".toList⟩, 0, 6⟩] ∧
      tokensFrom "<p <b>".toList 3 = [⟨⟨false, ['b'], []⟩, 3, 6⟩] := by
  decide +kernel

end Markup
end HtmlTemplate
