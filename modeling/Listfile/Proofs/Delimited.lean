import Listfile.Proofs.Lexical
import Listfile.Proofs.Spelling

/-! Literals written between their delimiters and read again. A text is read as one
complete token exactly if it has the form of that kind with nothing behind it
(`lone_iff_form`). For a bracket this leaves one condition on the body: its closer
must not stand anywhere before the end, also not where body and closer overlap. For
a quoted argument the body is cut from the left into backslash pairs and single
characters (`parts`), and neither a quote nor a backslash may be left single. What
is read is then what was written, so the conditions say exactly which literals
survive (`literals_survive_iff`). -/

namespace Listfile

/-- The first place at which a part stands in a text. -/
def Text.FirstAt (part t : Text) (i : Nat) : Prop :=
  part <+: t.drop i ∧ ∀ j, j < i → ¬ part <+: t.drop j

namespace Token

/-! ### One token alone -/

theorem Reader.tokens_ne_nil (r : Reader) : r.tokens ≠ [] := by
  by_cases h : r.ahead = []
  · simp [tokens_of_nil h]
  · simp [tokens_of_ne_nil h]

/-- Where a reader gives one token before the end of the file, nothing is ahead behind it. -/
theorem Reader.next_of_tokens_eq_pair {r : Reader} {t stop : Token} (h : r.tokens = [t, stop]) :
    r.ahead ≠ [] ∧ r.next.1 = t ∧ r.next.2.ahead = [] := by
  have hne : r.ahead ≠ [] := by
    intro hnil
    simp [tokens_of_nil hnil] at h
  rw [tokens_of_ne_nil hne] at h
  obtain ⟨hfirst, hrest⟩ := List.cons.inj h
  refine ⟨hne, hfirst, ?_⟩
  by_contra hmore
  rw [tokens_of_ne_nil hmore] at hrest
  exact tokens_ne_nil _ (List.cons.inj hrest).2

/-- A text is read as one token of a kind, which covers it, and nothing is reported. -/
structure Lone (kind : Kind) (w : Text) (t : Token) : Prop where
  scan_eq : scan w = [t, Reader.stopToken w.length]
  kind_eq : t.kind = kind
  span_eq : t.span = .ofLength 0 w.length
  faults_eq : faults (scan w) = []

namespace Lone

variable {kind : Kind} {w : Text} {t : Token}

theorem text_eq (h : Lone kind w t) : t.text = w := by
  have ht : t ∈ scan w := by simp [h.scan_eq]
  rw [← slice_of_mem_scan ht, h.span_eq]
  simp [Span.slice, Span.ofLength, Span.length]

theorem startsLine_eq (h : Lone kind w t) : t.startsLine = true := by
  obtain ⟨hne, hfirst, -⟩ := Reader.next_of_tokens_eq_pair h.scan_eq
  obtain ⟨c, u, hw⟩ := List.exists_cons_of_ne_nil hne
  rw [← hfirst, Reader.next_of_cons hw]
  rfl

theorem form (h : Lone kind w t) : Form [] kind true w := by
  obtain ⟨hne, hfirst, hnil⟩ := Reader.next_of_tokens_eq_pair h.scan_eq
  have hform := Reader.form_next hne
  have hclosed : t.closed = true := by
    have hnone : t.fault? = none := by
      apply List.filterMap_eq_nil_iff.mp h.faults_eq t
      simp [h.scan_eq]
    rw [fault?_of_form (hfirst ▸ hform)] at hnone
    by_contra hopen
    simp [hopen] at hnone
  rwa [hnil, hfirst, h.kind_eq, hclosed, h.text_eq] at hform

end Lone

theorem lone_iff_form {kind : Kind} {w : Text} :
    (∃ t, Lone kind w t) ↔ Form [] kind true w := by
  constructor
  · rintro ⟨t, h⟩
    exact h.form
  · intro h
    obtain ⟨c, u, escaped, hall, hcut⟩ := h.exists_cut
    rw [List.append_nil] at hall
    subst hall
    have hscan : scan (c :: u) =
        [⟨kind, c :: u, .ofLength 0 (c :: u).length, true, escaped, true⟩,
          Reader.stopToken (c :: u).length] := by
      have hr : (Reader.start (c :: u)).ahead = c :: u := rfl
      rw [scan, Reader.tokens_of_ne_nil (by simp [hr]), Reader.next_of_cons hr, hcut,
        Reader.tokens_of_nil rfl]
      simp [Reader.start]
    exact ⟨_, hscan, rfl, rfl, by rw [hscan]; rfl⟩

/-! ### Brackets -/

theorem form_bracket_iff {rest t : Text} {n : Nat} {closed : Bool} :
    Form rest .bracket closed (opener n ++ t) ↔ Through (closer n) rest closed t := by
  constructor
  · intro h
    generalize hw : opener n ++ t = w at h
    cases h with
    | @bracket m u _ h =>
      have hfence : some n = some m := by
        rw [← fence?_opener_append n t, hw, fence?_opener_append]
      obtain rfl := Option.some.inj hfence
      exact List.append_cancel_left hw ▸ h
  · exact .bracket

theorem form_bracketComment_iff {rest t : Text} {n : Nat} {closed : Bool} :
    Form rest .bracketComment closed ('#' :: (opener n ++ t)) ↔
      Through (closer n) rest closed t := by
  constructor
  · intro h
    generalize hw : '#' :: (opener n ++ t) = w at h
    cases h with
    | @bracketComment m u _ h =>
      have htail := (List.cons.inj hw).2
      have hfence : some n = some m := by
        rw [← fence?_opener_append n t, htail, fence?_opener_append]
      obtain rfl := Option.some.inj hfence
      exact List.append_cancel_left htail ▸ h
  · exact .bracketComment

/-- A body with its terminator goes up to the leftmost one exactly if that is the first. -/
theorem through_iff_firstAt (stop body : Text) :
    Through stop [] true (body ++ stop) ↔ Text.FirstAt stop (body ++ stop) body.length := by
  constructor
  · intro h
    generalize hw : body ++ stop = w at h
    cases h with
    | @closed t h =>
      obtain rfl : body = t := List.append_cancel_right hw
      refine ⟨List.drop_left.symm ▸ List.prefix_rfl, ?_⟩
      rintro j hj ⟨back, hback⟩
      have hsplit : body ++ stop ++ [] = (body ++ stop).take j ++ stop ++ back := by
        rw [List.append_assoc _ stop back, hback, List.take_append_drop, List.append_nil]
      have hlength := h _ _ hsplit
      rw [List.length_take] at hlength
      omega
  · intro h
    refine .closed ?_
    intro front back heq
    rw [List.append_nil] at heq
    by_contra hlt
    apply h.2 front.length (by omega)
    rw [heq, List.append_assoc, List.drop_left]
    exact List.prefix_append stop back

/-! ### Quoted texts -/

/-- A text cut from the left into backslashes with the character they take along and single
characters. -/
def parts : Text → List Text
  | [] => []
  | '\\' :: c :: t => ['\\', c] :: parts t
  | c :: t => [c] :: parts t

theorem parts_cons {c : Char} (h : c ≠ '\\') (t : Text) : parts (c :: t) = [c] :: parts t := by
  rw [parts.eq_def]
  split <;> simp_all

theorem flatten_parts (t : Text) : (parts t).flatten = t := by
  fun_induction parts t with
  | case1 => rfl
  | case2 c t ih => simp [ih]
  | case3 c t _ ih => simp [ih]

/-- In front of something, a text can stand between quotes exactly if no quote and no backslash is
single in it. -/
theorem inside_iff_parts (c : Char) (rest t : Text) :
    Inside (c :: rest) t ↔ ['"'] ∉ parts t ∧ ['\\'] ∉ parts t := by
  constructor
  · intro h
    induction h with
    | nil => simp [parts]
    | char hquote hescape _ ih =>
      rw [parts_cons hescape]
      simp [ih, Ne.symm hquote, Ne.symm hescape]
    | pair _ ih => simpa [parts] using ih
    | lone hrest => contradiction
  · intro h
    fun_induction parts t with
    | case1 => exact .nil
    | case2 d t ih => exact .pair (ih (by simpa using h))
    | case3 d t _ ih =>
      simp only [List.mem_cons, List.cons.injEq, and_true, not_or] at h
      exact .char (Ne.symm h.1.1) (Ne.symm h.2.1) (ih ⟨h.1.2, h.2.2⟩)

theorem form_quoted_iff {t : Text} :
    Form [] .quoted true ('"' :: (t ++ ['"'])) ↔ Inside ['"'] t := by
  constructor
  · intro h
    generalize hw : '"' :: (t ++ ['"']) = w at h
    cases h with
    | quoted h =>
      have htail := (List.cons.inj hw).2
      generalize hclosed : true = closed at h
      cases h with
      | closed h => exact List.append_cancel_right htail ▸ h
      | unclosed => contradiction
  · intro h
    exact .quoted (.closed h)

end Token

open Token Layout

/-! ### Written and read -/

/-- A text is read as one complete token of a kind, from which `decode` gives `a`. -/
def ReadBack {α : Type} (kind : Kind) (w : Text) (decode : Token → α) (a : α) : Prop :=
  ∃ t, Lone kind w t ∧ decode t = a

section
variable {α : Type} {kind : Kind} {w : Text} {decode : Token → α} {a : α}

/-- Where a lone token is always decoded to `a`, reading back is a matter of the form alone. -/
theorem readBack_iff (h : ∀ t, Lone kind w t → decode t = a) :
    ReadBack kind w decode a ↔ Form [] kind true w := by
  rw [← lone_iff_form]
  constructor
  · rintro ⟨t, ht, -⟩
    exact ⟨t, ht⟩
  · rintro ⟨t, ht⟩
    exact ⟨t, ht, h t ht⟩

end

variable (lines : LineIndex) {n : Nat} {s : Text} {t : Token}

theorem location_of_lone {kind : Kind} {w : Text} (h : Lone kind w t) :
    lines.location t.span.start = lines.location 0 := by
  rw [h.span_eq]
  rfl

theorem argument?_bracket (h : Lone .bracket (bracketText s n) t) :
    Parse.argument? lines t = some (.bracket s n (some (lines.location 0))) := by
  simp only [Parse.argument?, h.kind_eq, h.text_eq, location_of_lone lines h, fenceOf_bracketText,
    bracketBody_bracketText]

theorem argument?_bracketComment (h : Lone .bracketComment ('#' :: bracketText s n) t) :
    Parse.argument? lines t = some (.bracketComment s n (some (lines.location 0))) := by
  simp only [Parse.argument?, h.kind_eq, h.text_eq, location_of_lone lines h, List.tail_cons,
    fenceOf_bracketText, bracketBody_bracketText]

theorem bracketComment_of_lone (h : Lone .bracketComment ('#' :: bracketText s n) t) :
    Parse.bracketComment lines t = .bracketComment s n false (some (lines.location 0)) := by
  simp only [Parse.bracketComment, h.text_eq, h.startsLine_eq, location_of_lone lines h,
    List.tail_cons, fenceOf_bracketText, bracketBody_bracketText, Bool.not_true]

/-- The quotes go at both ends, since the last one is not escaped. -/
theorem argument?_quoted (h : Lone .quoted ('"' :: (s ++ ['"'])) t) :
    Parse.argument? lines t = some (.quoted s) := by
  have hescaped := (form_quoted_iff.mp h.form).quotesEscaped
  simp only [Parse.argument?, h.kind_eq, h.text_eq, quotedBody_of_quotesEscaped hescaped]

/-- A bracket argument and a bracket comment are read back as they were written if and only if
their closer stands in body and closer first at the end of the body. A quoted argument is if and
only if no quote and no backslash is single among the parts of its text. -/
theorem literals_survive_iff (style : Style) (lines : LineIndex) (s : Text) (n : Nat) :
    (ReadBack .bracket (bracketText s n) (Parse.argument? lines)
        (some (.bracket s n (some (lines.location 0)))) ↔
      Text.FirstAt (closer n) (s ++ closer n) s.length) ∧
    (ReadBack .bracketComment ('#' :: bracketText s n) (Parse.argument? lines)
        (some (.bracketComment s n (some (lines.location 0)))) ↔
      Text.FirstAt (closer n) (s ++ closer n) s.length) ∧
    (ReadBack .bracketComment ('#' :: bracketText s n) (Parse.bracketComment lines)
        (.bracketComment s n false (some (lines.location 0))) ↔
      Text.FirstAt (closer n) (s ++ closer n) s.length) ∧
    (parts s).flatten = s ∧
    ∃ w, inline? style (.quoted s) = some w ∧
      (ReadBack .quoted w (Parse.argument? lines) (some (.quoted s)) ↔
        ['"'] ∉ parts s ∧ ['\\'] ∉ parts s) := by
  refine ⟨?_, ?_, ?_, flatten_parts s, _, rfl, ?_⟩
  · rw [readBack_iff fun t => argument?_bracket lines, bracketText, List.append_assoc,
      form_bracket_iff, through_iff_firstAt]
  · rw [readBack_iff fun t => argument?_bracketComment lines, bracketText, List.append_assoc,
      form_bracketComment_iff, through_iff_firstAt]
  · rw [readBack_iff fun t => bracketComment_of_lone lines, bracketText, List.append_assoc,
      form_bracketComment_iff, through_iff_firstAt]
  · rw [readBack_iff fun t => argument?_quoted lines, form_quoted_iff, inside_iff_parts]

end Listfile
