import Listfile.Proofs.Lossless
import Mathlib.Data.List.DropRight

/-! The flags of tokens. A reader carries from token to token whether a line starts
in front of it; line breaks set this, spaces leave it, all else clears it
(`lineStart_tokens`). So what counts is the run of tokens behind the last line break,
and line breaks inside of quoted texts, brackets and escapes do not end that run.
The flag for escapes is set where a scanner meets a backslash, and only the scanners
of quoted and unquoted arguments look for one (`cut_escaped_iff`). -/

namespace Listfile.Token

/-! ### Escapes -/

theorem cutQuoted_escaped_iff (t : Text) :
    (cutQuoted t).escaped = true ↔ '\\' ∈ (cutQuoted t).text := by
  fun_induction cutQuoted t with
  | case1 => simp
  | case2 => simp
  | case3 c t ih => simp [Cut.pushEscape]
  | case4 t => simp
  | case5 c t hlast hescape hc ih =>
    have hb : '\\' ≠ c := Ne.symm (ne_backslash hlast hescape)
    simp [Cut.push, ih, hb]

theorem cutUnquoted_escaped_iff (quoting : Bool) (t : Text) :
    (cutUnquoted quoting t).escaped = true ↔ '\\' ∈ (cutUnquoted quoting t).text := by
  fun_induction cutUnquoted quoting t with
  | case1 => simp
  | case2 => simp
  | case3 quoting c t ih => simp [Cut.pushEscape]
  | case4 quoting t hlast hescape ih => simp [Cut.push, ih]
  | case5 => simp
  | case6 quoting c t hlast hescape hc hstop ih =>
    have hb : '\\' ≠ c := Ne.symm (ne_backslash hlast hescape)
    simp [Cut.push, ih, hb]

theorem cutThrough_escaped (stop t : Text) : (cutThrough stop t).escaped = false := by
  induction t with
  | nil => rfl
  | cons c t ih =>
    unfold cutThrough
    split
    · rfl
    · exact ih

theorem cutBracket_escaped (n : Nat) (t : Text) : (cutBracket n t).escaped = false :=
  cutThrough_escaped _ _

theorem cutBreak_escaped (c : Char) (t : Text) : (cutBreak c t).escaped = false := by
  unfold cutBreak
  split
  · split <;> rfl
  · rfl

/-- A backslash is an escape in quoted and unquoted arguments, and nowhere else. -/
theorem cut_escaped_iff (c : Char) (t : Text) :
    (cut c t).2.escaped = true ↔
      ((cut c t).1 = .quoted ∨ (cut c t).1 = .unquoted) ∧ '\\' ∈ (cut c t).2.text := by
  unfold cut
  split
  · simp [cutBreak_escaped]
  split
  · simp [Cut.run, Cut.push]
  split
  · split <;> simp [Cut.run, Cut.push, cutBracket_escaped]
  split
  · simp
  split
  · simp
  split
  · next hc => simp [hc, Cut.push, cutQuoted_escaped_iff]
  split
  · simp [cutBracket_escaped]
  · simp [cutUnquoted_escaped_iff]

/-! ### Starts of lines -/

namespace Reader

theorem next_startsLine {r : Reader} (h : r.ahead ≠ []) : r.next.1.startsLine = r.lineStart := by
  obtain ⟨c, t, hr⟩ := List.exists_cons_of_ne_nil h
  rw [next_of_cons hr]

theorem next_lineStart {r : Reader} (h : r.ahead ≠ []) :
    r.next.2.lineStart = staysAtLineStart r.next.1.kind r.lineStart := by
  obtain ⟨c, t, hr⟩ := List.exists_cons_of_ne_nil h
  rw [next_of_cons hr]

theorem next_escaped_iff {r : Reader} (h : r.ahead ≠ []) :
    r.next.1.escaped = true ↔
      (r.next.1.kind = .quoted ∨ r.next.1.kind = .unquoted) ∧ '\\' ∈ r.next.1.text := by
  obtain ⟨c, t, hr⟩ := List.exists_cons_of_ne_nil h
  rw [next_of_cons hr]
  exact cut_escaped_iff c t

/-- Whether a line starts behind some tokens, if `b` says so for the place in front of them. -/
def lineStartBehind (b : Bool) (tokens : List Token) : Bool :=
  tokens.foldl (fun b t => staysAtLineStart t.kind b) b

/-- What a token knows of its line is what the tokens in front of it have left of the reader. -/
theorem lineStart_tokens {r : Reader} {front back : List Token} {t : Token}
    (h : r.tokens = front ++ t :: back) (hk : t.kind ≠ .endOfFile) :
    t.startsLine = lineStartBehind r.lineStart front := by
  induction front generalizing r with
  | nil =>
    have hr : r.ahead ≠ [] := by
      intro hnil
      rw [tokens_of_nil hnil] at h
      obtain ⟨rfl, -⟩ := List.cons.inj h
      exact hk rfl
    rw [tokens_of_ne_nil hr] at h
    obtain ⟨rfl, -⟩ := List.cons.inj h
    exact next_startsLine hr
  | cons u front ih =>
    have hr : r.ahead ≠ [] := by
      intro hnil
      simp [tokens_of_nil hnil] at h
    rw [tokens_of_ne_nil hr] at h
    obtain ⟨rfl, hrest⟩ := List.cons.inj h
    rw [ih hrest, next_lineStart hr]
    rfl

/-- Behind the first tokens of a source, a line starts if and only if there are only spaces behind
the last line break among them. -/
theorem lineStartBehind_iff (tokens : List Token) :
    lineStartBehind true tokens = true ↔
      ∀ u ∈ tokens.rtakeWhile (fun u => u.kind ≠ .lineBreak), u.kind = .space := by
  induction tokens using List.reverseRecOn with
  | nil => simp [lineStartBehind]
  | append_singleton front t ih =>
    have hstep : lineStartBehind true (front ++ [t]) =
        staysAtLineStart t.kind (lineStartBehind true front) := by
      simp [lineStartBehind]
    rw [hstep]
    by_cases hbreak : t.kind = .lineBreak
    · rw [List.rtakeWhile_concat_neg _ _ _ (by simp [hbreak])]
      simp [hbreak, staysAtLineStart]
    · rw [List.rtakeWhile_concat_pos _ _ _ (by simp [hbreak])]
      by_cases hspace : t.kind = .space
      · simpa [hspace, staysAtLineStart, or_imp, forall_and] using ih
      · have hclear : staysAtLineStart t.kind (lineStartBehind true front) = false := by
          cases hk : t.kind <;> simp_all [staysAtLineStart]
        rw [hclear]
        simp only [Bool.false_eq_true, false_iff]
        intro hall
        exact hspace (hall t (by simp))

end Reader

/-! ### Flags -/

theorem testBit_flags_zero (t : Token) : t.flags.testBit 0 = t.startsLine := by
  cases hs : t.startsLine <;> cases he : t.escaped <;> simp [flags, hs, he]

theorem testBit_flags_one (t : Token) : t.flags.testBit 1 = t.escaped := by
  cases hs : t.startsLine <;> cases he : t.escaped <;> simp [flags, hs, he] <;> rfl

/-- The first flag of a token says that behind the last line break in front of it, or behind the
start of the source, there are only spaces. The second says that it is a quoted or unquoted argument
with a backslash. The end of the file has neither. -/
theorem flags_tell_line_and_escape {source : Text} {front back : List Token} {t : Token}
    (h : scan source = front ++ t :: back) :
    (t.kind ≠ .endOfFile →
      (t.flags.testBit 0 = true ↔
        ∀ u ∈ front.rtakeWhile (fun u => u.kind ≠ .lineBreak), u.kind = .space) ∧
      (t.flags.testBit 1 = true ↔
        (t.kind = .quoted ∨ t.kind = .unquoted) ∧ '\\' ∈ t.text)) ∧
    (t.kind = .endOfFile → t.flags = 0) := by
  have ht : t ∈ scan source := by simp [h]
  obtain ⟨r, -, rfl⟩ := (Reader.within_start source).exists_reader ht
  have hend := r.next_kind_eq_endOfFile_iff
  constructor
  · intro hk
    rw [testBit_flags_zero, testBit_flags_one, Reader.lineStart_tokens h hk]
    exact ⟨Reader.lineStartBehind_iff front, Reader.next_escaped_iff (mt hend.mpr hk)⟩
  · intro hk
    rw [Reader.next_of_nil (hend.mp hk)]
    rfl

/-- Line breaks inside of a quoted argument and behind a backslash are part of their tokens, so that
the second argument does not start its line. -/
theorem flags_tell_line_and_escape_broken :
    let source := "\"a\n\" \\\nb".toList
    let first : Token := ⟨.quoted, "\"a\n\"".toList, ⟨0, 4, by decide⟩, true, false, true⟩
    let space : Token := ⟨.space, [' '], ⟨4, 5, by decide⟩, false, false, true⟩
    let second : Token := ⟨.unquoted, "\\\nb".toList, ⟨5, 8, by decide⟩, false, true, true⟩
    scan source = [first, space] ++ second :: [Reader.stopToken 8] ∧
      ¬ second.flags.testBit 0 = true ∧ second.flags.testBit 1 = true := by
  intro source first space second
  have hscan : scan source = [first, space] ++ second :: [Reader.stopToken 8] := by
    decide +kernel
  obtain ⟨hline, hescape⟩ := (flags_tell_line_and_escape hscan).1 (by decide)
  refine ⟨hscan, fun hbit => ?_, hescape.mpr ⟨.inr rfl, by decide⟩⟩
  have hspaces := hline.mp hbit first (by decide)
  exact absurd hspaces (by decide)

end Listfile.Token
