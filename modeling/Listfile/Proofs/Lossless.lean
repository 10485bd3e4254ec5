import Listfile.Proofs.Scan
import Mathlib.Data.List.Basic

/-! Reading loses nothing. A reader within a source has the rest of that source
ahead of it, from its offset on. One read takes a token off the front, with a
span from the offset of the reader to that of the reader behind it, and as long
as anything is ahead the token is not empty. So the spans of all tokens cover the
source from its start to its end without a gap, there are at most as many of them
as characters and one more, and only the last is that of the end of the file.
From there on a reader stays where it is (`scan_lossless`). -/

namespace Listfile

/-- A text from the start of a span on: what the span holds, and what stands behind it. -/
theorem Span.slice_append_drop (s : Span) (t : Text) :
    s.slice t ++ t.drop s.stop = t.drop s.start := by
  have hstop : s.start + s.length = s.stop := Nat.add_sub_cancel' s.start_le_stop
  rw [Span.slice, ← hstop, ← List.drop_drop, List.take_append_drop]

namespace Token

/-- Tokens whose spans follow each other without a gap, from the offset `start` to the offset
`stop`. -/
def Contiguous (start stop : Nat) : List Token → Prop
  | [] => start = stop
  | t :: rest => t.span.start = start ∧ Contiguous t.span.stop stop rest

namespace Reader

/-- What a reader has ahead is the source from its offset on. -/
def Within (source : Text) (r : Reader) : Prop :=
  ∃ front, source = front ++ r.ahead ∧ front.length = r.offset

theorem within_start (source : Text) : (start source).Within source := ⟨[], rfl, rfl⟩

/-! ### One read -/

/-- The text of a token and what is ahead behind it are what was ahead before. -/
theorem next_text_append (r : Reader) : r.next.1.text ++ r.next.2.ahead = r.ahead := by
  cases h : r.ahead with
  | nil => simp [next_of_nil h, stopToken, h]
  | cons c t => simpa [next_of_cons h] using cut_text_append_rest c t

theorem next_start (r : Reader) : r.next.1.span.start = r.offset := by
  cases h : r.ahead with
  | nil => simp [next_of_nil h, stopToken, Span.point]
  | cons c t => simp [next_of_cons h, Span.ofLength]

theorem next_stop (r : Reader) : r.next.1.span.stop = r.offset + r.next.1.text.length := by
  cases h : r.ahead with
  | nil => simp [next_of_nil h, stopToken, Span.point]
  | cons c t => simp [next_of_cons h, Span.ofLength]

theorem next_offset (r : Reader) : r.next.2.offset = r.next.1.span.stop := by
  cases h : r.ahead with
  | nil => simp [next_of_nil h, stopToken, Span.point]
  | cons c t => simp [next_of_cons h, Span.ofLength]

theorem next_kind_eq_endOfFile_iff (r : Reader) :
    r.next.1.kind = .endOfFile ↔ r.ahead = [] := by
  cases h : r.ahead with
  | nil => simp [next_of_nil h, stopToken]
  | cons c t => simp [next_of_cons h, cut_kind_ne_endOfFile]

theorem next_text_ne_nil {r : Reader} (h : r.ahead ≠ []) : r.next.1.text ≠ [] := by
  obtain ⟨c, t, hr⟩ := List.exists_cons_of_ne_nil h
  simpa [next_of_cons hr] using cut_text_ne_nil c t

/-- A reader stays within its source. -/
theorem Within.next {source : Text} {r : Reader} (h : r.Within source) :
    r.next.2.Within source := by
  obtain ⟨front, hsource, hoffset⟩ := h
  refine ⟨front ++ r.next.1.text, ?_, ?_⟩
  · rw [List.append_assoc, next_text_append, hsource]
  · rw [next_offset, next_stop, List.length_append, hoffset]

/-- A reader within a source reads the token that its span cuts out of the source. -/
theorem Within.slice_next {source : Text} {r : Reader} (h : r.Within source) :
    r.next.1.span.slice source = r.next.1.text := by
  obtain ⟨front, hsource, hoffset⟩ := h
  rw [Span.slice, Span.length, next_stop, next_start, hsource, ← hoffset, List.drop_left,
    ← next_text_append, Nat.add_sub_cancel_left, List.take_left]

/-- Behind a token the source goes on with what is ahead of the next reader. -/
theorem Within.drop_stop {source : Text} {r : Reader} (h : r.Within source) :
    source.drop r.next.1.span.stop = r.next.2.ahead := by
  obtain ⟨front, hsource, hoffset⟩ := h.next
  rw [← next_offset, ← hoffset, hsource, List.drop_left]

/-- At the end of what is ahead, a reader has come to the end of its source. -/
theorem Within.offset_of_nil {source : Text} {r : Reader} (h : r.Within source)
    (hr : r.ahead = []) : r.offset = source.length := by
  obtain ⟨front, hsource, hoffset⟩ := h
  rw [hsource, hr, List.append_nil, hoffset]

/-! ### All reads -/

/-- Every token is read by a reader within the source. -/
theorem Within.exists_reader {source : Text} {r : Reader} (h : r.Within source) {t : Token}
    (ht : t ∈ r.tokens) : ∃ r' : Reader, r'.Within source ∧ r'.next.1 = t := by
  fun_induction tokens r with
  | case1 r hr => exact ⟨r, h, (List.mem_singleton.mp ht).symm⟩
  | case2 r hr ih =>
    rcases List.mem_cons.mp ht with rfl | ht
    · exact ⟨r, h, rfl⟩
    · exact ih h.next ht

theorem Within.contiguous_tokens {source : Text} {r : Reader} (h : r.Within source) :
    Contiguous r.offset source.length r.tokens := by
  fun_induction tokens r with
  | case1 r hr =>
    rw [next_of_nil hr]
    exact ⟨rfl, h.offset_of_nil hr⟩
  | case2 r hr ih => exact ⟨next_start r, next_offset r ▸ ih h.next⟩

/-- The tokens before the end of the file: none of them is empty, so that there are no more of
them than characters. -/
theorem Within.exists_tokens_eq {source : Text} {r : Reader} (h : r.Within source) :
    ∃ body, r.tokens = body ++ [stopToken source.length] ∧ body.length ≤ r.ahead.length ∧
      ∀ t ∈ body, t.kind ≠ .endOfFile ∧ t.span.start < t.span.stop := by
  fun_induction tokens r with
  | case1 r hr =>
    rw [next_of_nil hr, h.offset_of_nil hr]
    exact ⟨[], rfl, Nat.zero_le _, by simp⟩
  | case2 r hr ih =>
    obtain ⟨body, hbody, hlength, hkinds⟩ := ih h.next
    have hpos := List.length_pos_iff.mpr (next_text_ne_nil hr)
    refine ⟨r.next.1 :: body, by rw [hbody]; rfl, ?_, ?_⟩
    · have happend := congrArg List.length (next_text_append r)
      rw [List.length_append] at happend
      rw [List.length_cons]
      omega
    · refine List.forall_mem_cons.mpr ⟨⟨?_, ?_⟩, hkinds⟩
      · exact mt (next_kind_eq_endOfFile_iff r).mp hr
      · rw [next_start, next_stop]
        omega

/-- At the end a reader gives the same token again and again. -/
theorem map_reads_of_nil {r : Reader} (h : r.ahead = []) (n : Nat) :
    (r.reads n).map Prod.fst = List.replicate n (stopToken r.offset) := by
  induction n with
  | zero => rfl
  | succ n ih => rw [reads, next_of_nil h, List.map_cons, ih, List.replicate_succ]

/-- Reads beyond the last token give that token again. -/
theorem Within.map_reads {source : Text} {r : Reader} (h : r.Within source) (n : Nat) :
    (r.reads (r.tokens.length + n)).map Prod.fst =
      r.tokens ++ List.replicate n (stopToken source.length) := by
  fun_induction tokens r with
  | case1 r hr =>
    rw [next_of_nil hr, List.length_singleton, map_reads_of_nil hr, h.offset_of_nil hr,
      Nat.add_comm, List.replicate_succ]
    rfl
  | case2 r hr ih =>
    rw [List.length_cons, Nat.add_right_comm, reads, List.map_cons, ih h.next, List.cons_append]

end Reader

/-! ### A whole source -/

theorem slice_of_mem_scan {source : Text} {t : Token} (h : t ∈ scan source) :
    t.span.slice source = t.text := by
  obtain ⟨r, hr, rfl⟩ := (Reader.within_start source).exists_reader h
  exact hr.slice_next

/-- The end of the file is never reported. -/
theorem faults_append_replicate (tokens : List Token) (n length : Nat) :
    faults (tokens ++ List.replicate n (Reader.stopToken length)) = faults tokens := by
  simp [faults, fault?, Reader.stopToken]

/-- Reading a source ends after at most one read more than it has characters, with the token at the
end of the file, which is read only there and from then on always, without a report. The spans of
the tokens cover the source without a gap, and what they cut out of it is the source. -/
theorem scan_lossless (source : Text) :
    ∃ body stop, scan source = body ++ [stop] ∧
      body.length ≤ source.length ∧
      (∀ t ∈ body, t.kind ≠ .endOfFile ∧ t.span.start < t.span.stop) ∧
      stop.kind = .endOfFile ∧ stop.span = .point source.length ∧
      Contiguous 0 source.length (scan source) ∧
      (∀ t ∈ scan source, t.text = t.span.slice source) ∧
      (scan source).flatMap (fun t => t.span.slice source) = source ∧
      ∀ n, ((Reader.start source).reads ((scan source).length + n)).map Prod.fst =
          scan source ++ List.replicate n stop ∧
        faults (((Reader.start source).reads ((scan source).length + n)).map Prod.fst) =
          faults (scan source) := by
  have hstart := Reader.within_start source
  obtain ⟨body, hbody, hlength, hkinds⟩ := hstart.exists_tokens_eq
  have htexts : (scan source).flatMap (fun t => t.span.slice source) =
      (scan source).flatMap (·.text) :=
    List.flatMap_congr fun t ht => slice_of_mem_scan ht
  refine ⟨body, Reader.stopToken source.length, hbody, hlength, hkinds, rfl, rfl,
    hstart.contiguous_tokens, fun t ht => (slice_of_mem_scan ht).symm, ?_, fun n => ?_⟩
  · rw [htexts]
    exact Reader.flatMap_text_tokens (Reader.start source)
  · have hreads := hstart.map_reads n
    exact ⟨hreads, hreads ▸ faults_append_replicate _ _ _⟩

end Token

end Listfile
