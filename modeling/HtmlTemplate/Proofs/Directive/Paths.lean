import HtmlTemplate.Proofs.Directive.Basic
import HtmlTemplate.Proofs.Directive.Retarget
import HtmlTemplate.Proofs.Scope

/-!
# Paths as they are read and as they are retargeted

Evaluation takes all of a trimmed guard for a path, and any names with points between them for the source of a
loop. Retargeting takes a run of word characters and points for a path, and leaves the rest of the value alone.
So what becomes of a path is that its leading run is rebased (`Reference.written`), and this is the rebased path
just where the path and its leading run agree on whether they begin with the item
(`Reference.written_eq_moved_iff`).
-/

namespace HtmlTemplate

/-! ## Words -/

namespace Text

theorem words_append_cons {c : Char} (hc : isBlank c = true) (s t : Text) :
    words (s ++ c :: t) = words s ++ words t := by
  rw [words, List.splitOnP_append_cons s t hc, List.filter_append]
  rfl

theorem words_blanks_append {b : Text} (hb : ∀ c ∈ b, isBlank c = true) (t : Text) : words (b ++ t) = words t := by
  induction b with
  | nil => rfl
  | cons c b ih =>
    rw [List.forall_mem_cons] at hb
    have hcut := words_append_cons hb.1 [] (b ++ t)
    rw [List.nil_append] at hcut
    rw [List.cons_append, hcut, ih hb.2]
    rfl

theorem words_of_solid {w : Text} (hne : w ≠ []) (hw : ∀ c ∈ w, isBlank c = false) : words w = [w] := by
  rw [words, List.splitOnP_eq_singleton hw]
  simp [hne]

theorem words_cons {c : Char} (hc : isBlank c = false) (t : Text) :
    ∃ w rest, c :: t = w ++ rest ∧ w ≠ [] ∧ (∀ d ∈ w, isBlank d = false) ∧ rest.head?.all isBlank = true ∧
      words (c :: t) = w :: words rest := by
  have hsplit := List.takeWhile_append_dropWhile (p := isSolid) (l := c :: t)
  have hne : (c :: t).takeWhile isSolid ≠ [] := by simp [isSolid, hc]
  have hsolid : ∀ d ∈ (c :: t).takeWhile isSolid, isBlank d = false := fun d hd => by
    simpa [isSolid] using List.mem_takeWhile_imp hd
  refine ⟨_, _, hsplit.symm, hne, hsolid, ?_⟩
  have hrest := List.head?_dropWhile_not isSolid (c :: t)
  generalize (c :: t).takeWhile isSolid = w at *
  generalize (c :: t).dropWhile isSolid = rest at *
  rw [← hsplit]
  cases rest with
  | nil =>
    rw [List.append_nil, words_of_solid hne hsolid]
    simp [words]
  | cons d r =>
    have hd : isBlank d = true := by simpa [isSolid] using hrest
    have hr : words (d :: r) = words r := words_append_cons hd [] r
    rw [words_append_cons hd, words_of_solid hne hsolid, hr]
    simp [hd]

theorem words_append_blanks {w b : Text} (hne : w ≠ []) (hw : ∀ c ∈ w, isBlank c = false)
    (hb : ∀ c ∈ b, isBlank c = true) (hb' : b ≠ []) (t : Text) : words (w ++ (b ++ t)) = w :: words t := by
  obtain ⟨c, r, rfl⟩ := List.exists_cons_of_ne_nil hb'
  rw [List.forall_mem_cons] at hb
  rw [List.cons_append, words_append_cons hb.1, words_of_solid hne hw, words_blanks_append hb.2]
  rfl

theorem exists_blanks (t : Text) :
    ∃ b u, t = b ++ u ∧ (∀ c ∈ b, isBlank c = true) ∧ ∀ c ∈ u.head?, isBlank c = false := by
  refine ⟨t.takeWhile isBlank, t.dropWhile isBlank, List.takeWhile_append_dropWhile.symm,
    fun c => List.mem_takeWhile_imp, fun c hc => eq_false_of_head?_dropWhile hc⟩

theorem exists_of_words_cons {t w : Text} {ws : List Text} (h : words t = w :: ws) :
    ∃ b rest, t = b ++ (w ++ rest) ∧ (∀ c ∈ b, isBlank c = true) ∧ (∀ c ∈ w, isBlank c = false) ∧
      rest.head?.all isBlank = true ∧ words rest = ws := by
  obtain ⟨b, u, rfl, hb, hu⟩ := exists_blanks t
  rw [words_blanks_append hb] at h
  cases u with
  | nil => simp [words] at h
  | cons c u =>
    obtain ⟨w', rest, hsplit, -, hw, hrest, hwords⟩ := words_cons (hu c rfl) u
    obtain ⟨rfl, rfl⟩ := List.cons.inj (h.symm.trans hwords)
    exact ⟨b, rest, by rw [hsplit], hb, hw, hrest, rfl⟩

theorem all_isBlank_of_words_eq_nil {t : Text} (h : words t = []) : ∀ c ∈ t, isBlank c = true := by
  obtain ⟨b, u, rfl, hb, hu⟩ := exists_blanks t
  rw [words_blanks_append hb] at h
  cases u with
  | nil => simpa using hb
  | cons c u =>
    obtain ⟨w, rest, -, -, -, -, hwords⟩ := words_cons (hu c rfl) u
    simp [hwords] at h

end Text

/-! ## Loop expressions -/

theorem Text.not_isAlphanumeric_of_isBlank {c : Char} (h : isBlank c = true) : isAlphanumeric c = false := by
  have hword := not_isWord_of_isBlank h
  unfold isWord at hword
  unfold isAlphanumeric
  split
  · next hascii =>
    rw [if_pos hascii, Bool.or_eq_false_iff] at hword
    exact hword.1
  · next hascii =>
    rw [isBlank, if_neg hascii] at h
    rw [if_neg hascii] at hword
    simp only [Bool.or_eq_false_iff] at hword ⊢
    exact ⟨⟨hword.1.1.1.1, hword.1.1.2⟩, not_inRanges_of_apart (by decide +kernel) h⟩

namespace LoopExpr

def isNameChar (c : Char) : Bool := Text.isAlphanumeric c || c == '_'

theorem isIdentifier_iff {t : Text} : isIdentifier t = true ↔ t ≠ [] ∧ ∀ c ∈ t, isNameChar c = true := by
  simp [isIdentifier, isNameChar]

theorem isIdentifier_nameOf (n : Nat) : isIdentifier (Scope.nameOf n) = true := by
  refine isIdentifier_iff.2 ⟨by simp [Scope.nameOf, Scope.stem], fun c hc => ?_⟩
  rcases List.mem_append.1 hc with hstem | hnumeral
  · have hall : Scope.stem.all isNameChar = true := by decide
    exact List.all_eq_true.1 hall c hstem
  · have hdigit : c.isDigit = true := Nat.isDigit_of_mem_toDigits (by decide) (by decide) hnumeral
    have halnum : c.isAlphanum = true := by simp [Char.isAlphanum, hdigit]
    simp [isNameChar, Text.isAlphanumeric_of_ascii (Tag.ascii_of_isAlphanum halnum), halnum]

theorem not_mem_of_isIdentifier {t : Text} (h : isIdentifier t = true) {c : Char} (hc : isNameChar c = false) :
    c ∉ t := fun hmem => by simp [(isIdentifier_iff.1 h).2 c hmem] at hc

theorem splitOn_append {u : Text} (hu : '.' ∉ u) (t : Text) :
    (u ++ t).splitOn '.' = (t.splitOn '.').modifyHead (u ++ ·) := by
  induction u with
  | nil =>
    simp only [List.nil_append]
    exact (congrFun List.modifyHead_id (t.splitOn '.')).symm
  | cons c u ih =>
    rw [List.mem_cons, not_or] at hu
    rw [List.cons_append, List.splitOn, List.splitOnP_cons_eq_if_modifyHead,
      if_neg (by simpa using Ne.symm hu.1)]
    have ih' := ih hu.2
    rw [List.splitOn] at ih'
    rw [ih', List.modifyHead_modifyHead]
    rfl

theorem isPath_append {u v : Text} (hu : isIdentifier u = true) (hv : isIdentifier v = true) {t : Text}
    (h : isPath (u ++ t) = true) : isPath (v ++ t) = true := by
  have hpoint : isNameChar '.' = false := by decide
  rw [isPath, splitOn_append (not_mem_of_isIdentifier hu hpoint)] at h
  rw [isPath, splitOn_append (not_mem_of_isIdentifier hv hpoint)]
  cases hsplit : t.splitOn '.' with
  | nil => exact absurd hsplit (List.splitOn_ne_nil '.' t)
  | cons s segments =>
    rw [hsplit, List.modifyHead_cons, List.all_cons, Bool.and_eq_true] at h
    rw [List.modifyHead_cons, List.all_cons, Bool.and_eq_true]
    obtain ⟨hne, hall⟩ := isIdentifier_iff.1 hv
    refine ⟨isIdentifier_iff.2 ⟨by simp [hne], fun c hc => ?_⟩, h.2⟩
    rcases List.mem_append.1 hc with hc | hc
    · exact hall c hc
    · exact (isIdentifier_iff.1 h.1).2 c (List.mem_append_right u hc)

theorem eq_point_or_isNameChar {t : Text} (h : ∀ s ∈ t.splitOn '.', ∀ c ∈ s, isNameChar c = true) :
    ∀ c ∈ t, c = '.' ∨ isNameChar c = true := by
  induction t with
  | nil => simp
  | cons d t ih =>
    rw [List.splitOn, List.splitOnP_cons_eq_if_modifyHead] at h
    by_cases hd : d = '.'
    · rw [if_pos (by simpa using hd), List.forall_mem_cons] at h
      exact List.forall_mem_cons.2 ⟨.inl hd, ih h.2⟩
    · rw [if_neg (by simpa using hd)] at h
      change ∀ s ∈ (t.splitOn '.').modifyHead (List.cons d), ∀ c ∈ s, isNameChar c = true at h
      cases hsplit : t.splitOn '.' with
      | nil => exact absurd hsplit (List.splitOn_ne_nil '.' t)
      | cons s segments =>
        rw [hsplit, List.modifyHead_cons, List.forall_mem_cons, List.forall_mem_cons] at h
        rw [hsplit, List.forall_mem_cons] at ih
        exact List.forall_mem_cons.2 ⟨.inr h.1.1, ih ⟨h.1.2, h.2⟩⟩

theorem not_isBlank_of_isNameChar {c : Char} (h : isNameChar c = true) : Text.isBlank c = false := by
  by_contra hblank
  rw [Bool.not_eq_false] at hblank
  simp only [isNameChar, Text.not_isAlphanumeric_of_isBlank hblank, Bool.false_or, beq_iff_eq] at h
  rw [h] at hblank
  exact absurd hblank (by decide)

theorem eq_point_or_of_isPath {t : Text} (h : isPath t = true) : ∀ c ∈ t, c = '.' ∨ isNameChar c = true :=
  eq_point_or_isNameChar fun s hs => (isIdentifier_iff.1 (List.all_eq_true.1 h s hs)).2

theorem not_isBlank_of_isPath {t : Text} (h : isPath t = true) : ∀ c ∈ t, Text.isBlank c = false := by
  intro c hc
  rcases eq_point_or_of_isPath h c hc with rfl | hname
  · decide
  · exact not_isBlank_of_isNameChar hname

theorem ne_nil_of_isPath {t : Text} (h : isPath t = true) : t ≠ [] := by
  rintro rfl
  exact absurd h (by decide)

/-- The blanks around and between the words of an expression. -/
structure Layout where
  before : Text
  gap : Text
  space : Text
  after : Text
  before_blank : ∀ c ∈ before, Text.isBlank c = true
  gap_blank : ∀ c ∈ gap, Text.isBlank c = true
  space_blank : ∀ c ∈ space, Text.isBlank c = true
  after_blank : ∀ c ∈ after, Text.isBlank c = true
  gap_ne_nil : gap ≠ []
  space_ne_nil : space ≠ []

/-- An expression as it is laid out. -/
def Layout.text (l : Layout) (e : LoopExpr) : Text :=
  l.before ++ (e.item ++ (l.gap ++ (keyword ++ (l.space ++ (e.source ++ l.after)))))

theorem not_isBlank_of_mem_keyword : ∀ c ∈ keyword, Text.isBlank c = false := by
  simp [keyword, show Text.isBlank 'o' = false by decide, show Text.isBlank 'f' = false by decide]

theorem parse?_eq_some_iff {t : Text} {e : LoopExpr} :
    parse? t = some e ↔ t.words = [e.item, keyword, e.source] ∧ isIdentifier e.item = true ∧ isPath e.source = true := by
  unfold parse?
  constructor
  · intro h
    split at h
    · next item word source hwords =>
      split at h
      · next hvalid =>
        obtain rfl := Option.some.inj h
        simp only [Bool.and_eq_true, decide_eq_true_eq] at hvalid
        exact ⟨by rw [hwords, hvalid.1.1], hvalid.1.2, hvalid.2⟩
      · simp at h
    · simp at h
  · rintro ⟨hwords, hitem, hsource⟩
    rw [hwords]
    simp [hitem, hsource]

theorem parse?_layout (l : Layout) {e : LoopExpr} (hitem : isIdentifier e.item = true)
    (hsource : isPath e.source = true) : parse? (l.text e) = some e := by
  have hname := isIdentifier_iff.1 hitem
  have hsolid : ∀ c ∈ e.item, Text.isBlank c = false := fun c hc => not_isBlank_of_isNameChar (hname.2 c hc)
  have hlast : Text.words (e.source ++ l.after) = [e.source] := by
    cases hafter : l.after with
    | nil =>
      rw [List.append_nil]
      exact Text.words_of_solid (ne_nil_of_isPath hsource) (not_isBlank_of_isPath hsource)
    | cons c r =>
      have hwords := Text.words_append_blanks (ne_nil_of_isPath hsource) (not_isBlank_of_isPath hsource)
        l.after_blank (by simp [hafter]) []
      rwa [List.append_nil, hafter] at hwords
  have hwords : (l.text e).words = [e.item, keyword, e.source] := by
    rw [Layout.text, Text.words_blanks_append l.before_blank,
      Text.words_append_blanks hname.1 hsolid l.gap_blank l.gap_ne_nil,
      Text.words_append_blanks (by simp [keyword]) not_isBlank_of_mem_keyword l.space_blank l.space_ne_nil, hlast]
  exact parse?_eq_some_iff.2 ⟨hwords, hitem, hsource⟩

theorem exists_of_parse? {t : Text} {e : LoopExpr} (h : parse? t = some e) :
    isIdentifier e.item = true ∧ isPath e.source = true ∧ ∃ l : Layout, t = l.text e := by
  obtain ⟨hwords, hitem, hsource⟩ := parse?_eq_some_iff.1 h
  obtain ⟨b, t₁, rfl, hb, -, hhead₁, hwords₁⟩ := Text.exists_of_words_cons hwords
  obtain ⟨b₁, t₂, rfl, hb₁, -, hhead₂, hwords₂⟩ := Text.exists_of_words_cons hwords₁
  obtain ⟨b₂, t₃, rfl, hb₂, hsolid, -, hwords₃⟩ := Text.exists_of_words_cons hwords₂
  -- a word that is not the first one has a blank before it
  have hne : ∀ {b w t : Text}, (b ++ (w ++ t)).head?.all Text.isBlank = true → w ≠ [] →
      (∀ c ∈ w, Text.isBlank c = false) → b ≠ [] := by
    rintro b w t hhead hw hwsolid rfl
    obtain ⟨c, r, rfl⟩ := List.exists_cons_of_ne_nil hw
    have := hwsolid c (by simp)
    simp [this] at hhead
  exact ⟨hitem, hsource, ⟨b, b₁, b₂, t₃, hb, hb₁, hb₂, Text.all_isBlank_of_words_eq_nil hwords₃,
    hne hhead₁ (by simp [keyword]) not_isBlank_of_mem_keyword,
    hne hhead₂ (ne_nil_of_isPath hsource) hsolid⟩, rfl⟩

end LoopExpr

/-! ## Paths -/

/-- A path with its first segment replaced by the binding if it is the item. -/
def DataPath.moved (item binding path : Text) : Text :=
  if (splitHead path).1 = item then binding ++ path.dropWhile (· != '.') else path

theorem DataPath.head_append (path : Text) : (splitHead path).1 ++ path.dropWhile (· != '.') = path :=
  List.takeWhile_append_dropWhile

namespace Reference

open DataPath (splitHead moved head_append)

variable {item binding : Text}

theorem getD_rebase? (hitem : '.' ∉ item) (path : Text) :
    (rebase? item binding path).getD path = moved item binding path := by
  have hall : ∀ c ∈ item, (c != '.') = true := fun c hc => by
    simpa using fun he : c = '.' => hitem (he ▸ hc)
  unfold rebase? moved splitHead
  split
  · next rest hrest =>
    obtain rfl := Text.eq_append_of_after? hrest
    rw [List.takeWhile_append_of_pos hall, List.dropWhile_append_of_pos hall]
    cases rest with
    | nil => simp
    | cons c rest =>
      by_cases hc : c = '.'
      · simp [hc]
      · simp [hc]
  · next hnone =>
    split
    · next hhead =>
      have hsplit := head_append path
      rw [splitHead, hhead] at hsplit
      rw [← hsplit, Text.after?_append] at hnone
      simp at hnone
    · rfl

/-- What becomes of a path: its leading run of path characters is rebased. -/
def written (item binding path : Text) : Text :=
  (rebase? item binding (path.takeWhile isPathChar)).getD (path.takeWhile isPathChar) ++ path.dropWhile isPathChar

theorem written_eq (hitem : '.' ∉ item) (path : Text) :
    written item binding path =
      moved item binding (path.takeWhile isPathChar) ++ path.dropWhile isPathChar := by
  rw [written, getD_rebase? hitem]

theorem written_cases (hitem : '.' ∉ item) (path : Text) :
    written item binding path = path ∨
      ∃ rest, path = item ++ rest ∧ written item binding path = binding ++ rest := by
  have hrun := List.takeWhile_append_dropWhile (p := isPathChar) (l := path)
  rw [written_eq hitem, moved]
  split
  · next hhead =>
    refine .inr ⟨(path.takeWhile isPathChar).dropWhile (· != '.') ++ path.dropWhile isPathChar, ?_, by simp⟩
    rw [← hhead, ← List.append_assoc, head_append, hrun]
  · exact .inl hrun

/-- A path comes out as it should just where the path and its leading run agree on their first segment. -/
theorem written_eq_moved_iff (hitem : '.' ∉ item) (hfresh : binding ≠ item) (path : Text) :
    written item binding path = moved item binding path ↔
      ((splitHead path).1 = item ↔ (splitHead (path.takeWhile isPathChar)).1 = item) := by
  have hrun : (splitHead (path.takeWhile isPathChar)).1 = item →
      path = item ++ ((path.takeWhile isPathChar).dropWhile (· != '.') ++ path.dropWhile isPathChar) := by
    intro h
    rw [← h, ← List.append_assoc, head_append, List.takeWhile_append_dropWhile]
  have hpath : (splitHead path).1 = item → path = item ++ path.dropWhile (· != '.') := by
    intro h
    rw [← h, head_append]
  rw [written_eq hitem, moved, moved]
  by_cases h : (splitHead (path.takeWhile isPathChar)).1 = item
  · rw [if_pos h, List.append_assoc]
    have hrun' := hrun h
    generalize (path.takeWhile isPathChar).dropWhile (· != '.') ++ path.dropWhile isPathChar = rest at hrun' ⊢
    by_cases h' : (splitHead path).1 = item
    · have htails := hrun'.symm.trans (hpath h')
      rw [if_pos h', List.append_cancel_left htails]
      simp [h, h']
    · rw [if_neg h', hrun', List.append_cancel_right_eq, ← hrun']
      simp [h, h', hfresh]
  · rw [if_neg h, List.takeWhile_append_dropWhile]
    by_cases h' : (splitHead path).1 = item
    · have hpath' := hpath h'
      rw [if_pos h']
      generalize path.dropWhile (· != '.') = rest at hpath' ⊢
      have hne : path ≠ binding ++ rest := by
        intro he
        exact hfresh (List.append_cancel_right (he.symm.trans hpath'))
      simp [h, h', hne]
    · rw [if_neg h']
      simp [h, h']

theorem isPath_written (hitem : LoopExpr.isIdentifier item = true) (hbinding : LoopExpr.isIdentifier binding = true)
    {path : Text} (h : LoopExpr.isPath path = true) : LoopExpr.isPath (written item binding path) = true := by
  have hpoint := LoopExpr.not_mem_of_isIdentifier hitem (show LoopExpr.isNameChar '.' = false by decide)
  rcases written_cases hpoint path with he | ⟨rest, rfl, he⟩
  · rwa [he]
  · rw [he]
    exact LoopExpr.isPath_append hitem hbinding h

theorem head?_written (hitem : '.' ∉ item) (hbinding : binding.IsPath) {path : Text} {c : Char}
    (h : (written item binding path).head? = some c) : path.head? = some c ∨ isPathChar c = true := by
  rcases written_cases hitem path with he | ⟨rest, -, he⟩
  · exact .inl (he ▸ h)
  · rw [he, List.head?_append_of_ne_nil _ hbinding.ne_nil] at h
    exact .inr (hbinding.all c (List.mem_of_head? h))

theorem getLast?_written (hitem : '.' ∉ item) (hbinding : binding.IsPath) {path : Text} {c : Char}
    (h : (written item binding path).getLast? = some c) : path.getLast? = some c ∨ isPathChar c = true := by
  rcases written_cases hitem path with he | ⟨rest, rfl, he⟩
  · exact .inl (he ▸ h)
  · rw [he, List.getLast?_append] at h
    rw [List.getLast?_append]
    cases hrest : rest.getLast? with
    | none =>
      rw [hrest] at h
      exact .inr (hbinding.all c (List.mem_of_getLast? h))
    | some d =>
      rw [hrest] at h
      exact .inl h

theorem written_append_blanks (path : Text) {b : Text} (hb : ∀ c ∈ b, Text.isBlank c = true) :
    written item binding (path ++ b) = written item binding path ++ b := by
  cases b with
  | nil => simp
  | cons c b =>
    have hc := not_isPathChar_of_isBlank (hb c (by simp))
    simp [written, Text.takeWhile_append_cons hc, Text.dropWhile_append_cons hc]

end Reference

/-- A loop after retargeting. Where its item has other than word characters, its source is not read. -/
def LoopExpr.retargeted (item binding : Text) (e : LoopExpr) : LoopExpr :=
  if e.item.all Text.isWord then { e with source := Reference.written item binding e.source } else e

/-! ## Guards -/

namespace Text

theorem trimRight_append_blanks (t : Text) {b : Text} (hb : ∀ c ∈ b, isBlank c = true) :
    trimRight (t ++ b) = trimRight t := by
  rw [trimRight, List.reverse_append, List.dropWhile_append_of_pos fun c hc => hb c (List.mem_reverse.1 hc)]
  rfl

theorem trim_append_blanks (t : Text) {b : Text} (hb : ∀ c ∈ b, isBlank c = true) : trim (t ++ b) = trim t := by
  rw [trim, trimLeft, List.dropWhile_append]
  split
  · next hnil =>
    have hdrop : b.dropWhile isBlank = [] := List.dropWhile_eq_nil_iff.2 hb
    rw [hdrop, trim, trimLeft, List.isEmpty_iff.1 hnil]
  · exact trimRight_append_blanks _ hb

theorem exists_trimRight (t : Text) :
    ∃ b, (∀ c ∈ b, isBlank c = true) ∧ t = trimRight t ++ b ∧ ∀ c, (trimRight t).getLast? = some c → isBlank c = false := by
  have hsplit := List.takeWhile_append_dropWhile (p := isBlank) (l := t.reverse)
  refine ⟨(t.reverse.takeWhile isBlank).reverse, fun c hc => List.mem_takeWhile_imp (List.mem_reverse.1 hc), ?_,
    fun c hc => ?_⟩
  · rw [trimRight, ← List.reverse_append, hsplit, List.reverse_reverse]
  · rw [trimRight, List.getLast?_reverse] at hc
    exact eq_false_of_head?_dropWhile hc

theorem trimRight_eq_self {t : Text} (h : ∀ c, t.getLast? = some c → isBlank c = false) : trimRight t = t := by
  obtain ⟨b, hb, ht, -⟩ := Text.exists_trimRight t
  rcases List.eq_nil_or_concat b with rfl | ⟨b, c, rfl⟩
  · simpa using ht.symm
  · have hc := hb c (by simp)
    rw [h c (by rw [ht]; simp)] at hc
    simp at hc

theorem takeWhile_blanks {b t : Text} (hb : ∀ c ∈ b, isBlank c = true) (ht : ∀ c, t.head? = some c → isBlank c = false) :
    (b ++ t).takeWhile isBlank = b ∧ (b ++ t).dropWhile isBlank = t := by
  rw [List.takeWhile_append_of_pos hb, List.dropWhile_append_of_pos hb]
  cases t with
  | nil => simp
  | cons c t => simp [ht c rfl]

end Text

def Guard.retargeted (item binding : Text) (g : Guard) : Guard :=
  { g with path := Reference.written item binding g.path }

namespace Reference

variable {item binding : Text}

theorem readNegation_eq_self {t : Text} (h : t.head? ≠ some '!') : readNegation t = ([], t) := by
  unfold readNegation
  split
  · simp at h
  · rfl

def writtenGuard (item binding value : Text) : Text :=
  let (negation, path) := readNegation (value.dropWhile Text.isBlank)
  value.takeWhile Text.isBlank ++ (negation ++ written item binding path)

theorem readNegation_written (hitem : '.' ∉ item) (hbinding : binding.IsPath) {t : Text}
    (ht : ∀ c, t.head? = some c → Text.isBlank c = false) :
    (∀ c, ((readNegation t).1 ++ written item binding (readNegation t).2).head? = some c → Text.isBlank c = false) ∧
      readNegation ((readNegation t).1 ++ written item binding (readNegation t).2) =
        ((readNegation t).1, written item binding (readNegation t).2) := by
  have hsolid : ∀ {path : Text}, (∀ c, path.head? = some c → Text.isBlank c = false) →
      ∀ c, (written item binding path).head? = some c → Text.isBlank c = false := by
    intro path hpath c hc
    rcases head?_written hitem hbinding hc with hc | hc
    · exact hpath c hc
    · exact not_isBlank_of_isPathChar hc
  by_cases hmark : t.head? = some '!'
  · obtain ⟨r, rfl⟩ := List.head?_eq_some_iff.1 hmark
    have hr : ∀ c, (r.dropWhile Text.isBlank).head? = some c → Text.isBlank c = false := fun c =>
      Text.eq_false_of_head?_dropWhile
    obtain ⟨htake, hdrop⟩ := Text.takeWhile_blanks (b := r.takeWhile Text.isBlank)
      (fun c => List.mem_takeWhile_imp) (hsolid hr)
    simp only [readNegation, List.cons_append, List.head?_cons, Option.some.injEq, htake, hdrop, and_true]
    rintro c rfl
    decide
  · rw [readNegation_eq_self hmark, List.nil_append]
    refine ⟨hsolid ht, readNegation_eq_self fun hhead => ?_⟩
    rcases head?_written hitem hbinding hhead with hc | hc
    · exact hmark hc
    · exact absurd hc (by decide)

end Reference

namespace Guard

open Reference (readNegation written writtenGuard)

variable {item binding : Text}

/-- Evaluation and retargeting agree on where the path of a guard begins. -/
theorem parse_eq (value : Text) :
    parse value = ⟨(readNegation (value.dropWhile Text.isBlank)).2.trimRight,
      !(readNegation (value.dropWhile Text.isBlank)).1.isEmpty⟩ := by
  have htrim : value.trim = Text.trimRight (value.dropWhile Text.isBlank) := rfl
  rw [parse, htrim]
  generalize value.dropWhile Text.isBlank = t
  obtain ⟨b, hb, ht, -⟩ := Text.exists_trimRight t
  split
  · next path hpath =>
    have hnegation : (readNegation t).2 = (path ++ b).dropWhile Text.isBlank ∧ (readNegation t).1.isEmpty = false := by
      rw [ht, hpath]
      simp [readNegation]
    rw [hnegation.1, hnegation.2, ← Text.trim_append_blanks path hb]
    rfl
  · next path hpath =>
    rw [Reference.readNegation_eq_self]
    · rfl
    · intro hmark
      obtain ⟨r, rfl⟩ := List.head?_eq_some_iff.1 hmark
      cases hright : Text.trimRight ('!' :: r) with
      | nil =>
        rw [hright, List.nil_append] at ht
        have := hb '!' (by simp [← ht])
        exact absurd this (by decide)
      | cons c u =>
        rw [hright, List.cons_append] at ht
        exact hpath u (by rw [hright, (List.cons.inj ht).1])

theorem parse_writtenGuard (hitem : '.' ∉ item) (hbinding : binding.IsPath) (value : Text) :
    parse (writtenGuard item binding value) = (parse value).retargeted item binding := by
  have hsolid : ∀ c, (value.dropWhile Text.isBlank).head? = some c → Text.isBlank c = false := fun c =>
    Text.eq_false_of_head?_dropWhile
  obtain ⟨hhead, hread⟩ := Reference.readNegation_written hitem hbinding hsolid
  have hblanks : ∀ c ∈ value.takeWhile Text.isBlank, Text.isBlank c = true := fun c => List.mem_takeWhile_imp
  rw [parse_eq, parse_eq, writtenGuard, retargeted]
  dsimp only
  rw [(Text.takeWhile_blanks hblanks hhead).2, hread]
  generalize (readNegation (value.dropWhile Text.isBlank)).2 = path
  obtain ⟨b, hb, hpath, hlast⟩ := Text.exists_trimRight path
  have hwritten : (written item binding path).trimRight = written item binding path.trimRight := by
    rw [hpath, Reference.written_append_blanks _ hb, Text.trimRight_append_blanks _ hb, ← hpath]
    refine Text.trimRight_eq_self fun c hc => ?_
    rcases Reference.getLast?_written hitem hbinding hc with hc | hc
    · exact hlast c hc
    · exact not_isBlank_of_isPathChar hc
  rw [hwritten]

end Guard
end HtmlTemplate
