import Listfile.Command.Format
import Listfile.Proofs.Options
import Mathlib.Data.List.Nodup
import Mathlib.Tactic.Choose

/-! Changing a style by settings. A list of settings is taken if and only if each
key names a field, each word for the alignment is known, and the value that the
last setting of a field gives to it, or the value that the field has already,
fits the field (`exists_override_iff`); values that a later setting covers are not
looked at. The style that comes out is told by the last setting of each field
(`override_eq_ok_iff`), under whatever names the field is called, and so is the
style behind several lists one after another, from all their settings in a row.
The options of a command line are the last of these lists, so they come before the
style file, and that before the standard style (`overrides_last_wins`). -/

namespace Listfile

namespace Style

/-- Settings by the names of their fields, in the order in which they are given. -/
abbrev Overrides := List (Json.Letters × Json.Value)

/-! ### Fields and their values -/

/-- The value of a field. -/
def value (s : Style) : Field → Json.Value
  | .count c => .int (s.count c)
  | .switch w => .bool (s.switch w)

/-- The least number that a field may hold. -/
def Count.least : Count → Nat
  | .columnLimit => 1
  | _ => 0

/-- The values that a field may have. -/
inductive Fits : Field → Json.Value → Prop
  | count {c : Count} {n : Int} (h : c.least ≤ n) : Fits (.count c) (.int n)
  | switch (w : Switch) (b : Bool) : Fits (.switch w) (.bool b)

/-- A key is a name of a field, its own or one for style files. -/
def Names (f : Field) (key : Json.Letters) : Prop :=
  ∃ n ∈ fieldNames, n.2 = f ∧ .ofString n.1 = key

instance (f : Field) (key : Json.Letters) : Decidable (Names f key) :=
  inferInstanceAs (Decidable (∃ n ∈ fieldNames, n.2 = f ∧ .ofString n.1 = key))

/-- A word says whether arguments are aligned. -/
def IsAlignment (word : Json.Letters) : Prop := ∃ w ∈ alignmentWords, .ofString w.1 = word

instance (word : Json.Letters) : Decidable (IsAlignment word) :=
  inferInstanceAs (Decidable (∃ w ∈ alignmentWords, .ofString w.1 = word))

/-- The value that a setting gives to a field; alignment may be given as a word. -/
def converted : Field → Json.Value → Json.Value
  | .switch .alignArguments, .string word => ((alignment? word).map .bool).getD (.string word)
  | _, v => v

/-- The value that the last setting of a field gives to it. -/
def lastGiven (f : Field) (settings : Overrides) : Option Json.Value :=
  (settings.reverse.find? fun p => Names f p.1).map fun p => converted f p.2

theorem converted_of_ne_string {f : Field} {v : Json.Value} (h : ∀ word, v ≠ .string word) :
    converted f v = v := by
  unfold converted
  split
  · exact absurd rfl (h _)
  · rfl

theorem fits_value (s : Style) (f : Field) : Fits f (s.value f) := by
  cases f with
  | count c =>
    have hpos := s.columnLimit_pos
    refine .count ?_
    cases c <;> simp only [Count.least, count] <;> omega
  | switch w => exact .switch w _

theorem Fits.exists_count {c : Count} {v : Json.Value} (h : Fits (.count c) v) :
    ∃ n : Nat, c.least ≤ n ∧ .int n = v := by
  cases h with
  | @count _ n h => exact ⟨n.toNat, by omega, by rw [Int.toNat_of_nonneg (by omega)]⟩

theorem Fits.exists_switch {w : Switch} {v : Json.Value} (h : Fits (.switch w) v) :
    ∃ b, .bool b = v := by
  cases h with
  | switch _ b => exact ⟨b, rfl⟩

/-- Values that fit are the values of a style. -/
theorem exists_value_eq {v : Field → Json.Value} (h : ∀ f, Fits f (v f)) :
    ∃ s : Style, ∀ f, s.value f = v f := by
  choose n hleast hn using fun c => (h (.count c)).exists_count
  choose b hb using fun w => (h (.switch w)).exists_switch
  refine ⟨⟨n .indentWidth, n .columnLimit, n .allowedBlankLines, b .trimComments,
    b .spaceDefinitions, b .spaceControl, b .alignArguments, n .continuationIndent,
    hleast .columnLimit⟩, ?_⟩
  rintro (c | w)
  · rw [← hn]
    cases c <;> rfl
  · rw [← hb]
    cases w <;> rfl

/-! ### Keys and words -/

theorem ofString_injective {a b : String} (h : Json.Letters.ofString a = .ofString b) : a = b := by
  refine String.toList_inj.1 (List.map_injective_iff.2 ?_ h)
  intro c d hcd
  cases hcd
  rfl

theorem nodup_fieldNames : (fieldNames.map (·.1)).Nodup := by decide

/-- A key has at most one field. -/
theorem field?_eq_some_iff {key : Json.Letters} {f : Field} :
    field? key = some f ↔ Names f key := by
  unfold field? Names
  constructor
  · intro h
    obtain ⟨n, hn, rfl⟩ := Option.map_eq_some_iff.1 h
    exact ⟨n, List.mem_of_find?_eq_some hn, rfl, by simpa using List.find?_some hn⟩
  · rintro ⟨n, hn, rfl, rfl⟩
    cases hfind : fieldNames.find? fun m => Json.Letters.ofString m.1 = .ofString n.1 with
    | none => simpa using List.find?_eq_none.1 hfind n hn
    | some m =>
      have hname : m.1 = n.1 := ofString_injective (by simpa using List.find?_some hfind)
      have hm := List.mem_of_find?_eq_some hfind
      rw [List.inj_on_of_nodup_map nodup_fieldNames hm hn hname]
      rfl

theorem Names.unique {f g : Field} {key : Json.Letters} (hf : Names f key) (hg : Names g key) :
    f = g :=
  Option.some.inj ((field?_eq_some_iff.2 hf).symm.trans (field?_eq_some_iff.2 hg))

theorem isSome_alignment? {word : Json.Letters} :
    (alignment? word).isSome ↔ IsAlignment word := by
  simp [alignment?, IsAlignment, List.find?_isSome]

/-- A setting is understood: its key names a field, and a word for the alignment is known. -/
def Understood (p : Json.Letters × Json.Value) : Prop :=
  (∃ f, Names f p.1) ∧
    ∀ word, Names (.switch .alignArguments) p.1 → p.2 = .string word → IsAlignment word

theorem resolve_of_names {key : Json.Letters} {f : Field} (h : Names f key) (v : Json.Value)
    (hword : ∀ word, f = .switch .alignArguments → v = .string word → IsAlignment word) :
    resolve (key, v) = .ok (f, converted f v) := by
  unfold resolve
  rw [field?_eq_some_iff.2 h]
  simp only
  split
  · rename_i word
    obtain ⟨b, hb⟩ := Option.isSome_iff_exists.1 (isSome_alignment?.2 (hword word rfl rfl))
    simp [converted, hb]
  · rename_i hne
    unfold converted
    split
    · exact absurd rfl (hne _ rfl)
    · rfl

theorem resolve_eq_ok_iff {p : Json.Letters × Json.Value} {q : Field × Json.Value} :
    resolve p = .ok q ↔ Understood p ∧ Names q.1 p.1 ∧ q.2 = converted q.1 p.2 := by
  obtain ⟨key, v⟩ := p
  constructor
  · intro h
    cases hf : field? key with
    | none => simp [resolve, hf] at h
    | some f =>
      have hname := field?_eq_some_iff.1 hf
      have hword : ∀ word, Names (.switch .alignArguments) key → v = .string word →
          IsAlignment word := by
        rintro word halign rfl
        rw [← isSome_alignment?]
        cases hname.unique halign
        cases ha : alignment? word with
        | none => simp [resolve, hf, ha] at h
        | some b => rfl
      rw [resolve_of_names hname v fun word hw => hword word (hw ▸ hname)] at h
      cases h
      exact ⟨⟨⟨f, hname⟩, hword⟩, hname, rfl⟩
  · rintro ⟨⟨-, hword⟩, hname, hvalue⟩
    rw [resolve_of_names hname v fun word hw => hword word (hw ▸ hname)]
    exact congrArg Except.ok (Prod.ext rfl hvalue.symm)

/-! ### Changes -/

theorem changedCount_eq_ok_iff {changes : List (Field × Json.Value)} {s : Style} {c : Count}
    {n : Nat} :
    changedCount changes s c = .ok n ↔
      (lastFor (.count c) changes).getD (s.value (.count c)) = .int n := by
  unfold changedCount
  cases lastFor (.count c) changes with
  | none =>
    simp only [Option.getD_none, value, Except.ok.injEq, Json.Value.int.injEq, Int.natCast_inj]
  | some v =>
    cases v with
    | int m =>
      by_cases hm : m < 0
      · simp [hm]; omega
      · simp [hm]; omega
    | _ => simp

theorem changedSwitch_eq_ok_iff {changes : List (Field × Json.Value)} {s : Style} {w : Switch}
    {b : Bool} :
    changedSwitch changes s w = .ok b ↔
      (lastFor (.switch w) changes).getD (s.value (.switch w)) = .bool b := by
  unfold changedSwitch
  cases lastFor (.switch w) changes with
  | none => simp [value]
  | some v => cases v <;> simp

theorem override_eq_ok_iff_changes {settings : Overrides} {s s' : Style} :
    override settings s = .ok s' ↔
      ∃ changes, settings.mapM resolve = .ok changes ∧
        ∀ f, (lastFor f changes).getD (s.value f) = s'.value f := by
  constructor
  · intro h
    unfold override at h
    obtain ⟨changes, hchanges, h⟩ := bind_eq_ok.1 h
    obtain ⟨indentWidth, h₁, h⟩ := bind_eq_ok.1 h
    obtain ⟨columnLimit, h₂, h⟩ := bind_eq_ok.1 h
    obtain ⟨allowedBlankLines, h₃, h⟩ := bind_eq_ok.1 h
    obtain ⟨trimComments, h₄, h⟩ := bind_eq_ok.1 h
    obtain ⟨spaceDefinitions, h₅, h⟩ := bind_eq_ok.1 h
    obtain ⟨spaceControl, h₆, h⟩ := bind_eq_ok.1 h
    obtain ⟨alignArguments, h₇, h⟩ := bind_eq_ok.1 h
    obtain ⟨continuationIndent, h₈, h⟩ := bind_eq_ok.1 h
    split at h
    · cases h
      refine ⟨changes, hchanges, ?_⟩
      rintro (c | w)
      · cases c <;> apply changedCount_eq_ok_iff.1 <;> assumption
      · cases w <;> apply changedSwitch_eq_ok_iff.1 <;> assumption
    · cases h
  · rintro ⟨changes, hchanges, hvalues⟩
    have hcount (c : Count) : changedCount changes s c = .ok (s'.count c) :=
      changedCount_eq_ok_iff.2 (hvalues (.count c))
    have hswitch (w : Switch) : changedSwitch changes s w = .ok (s'.switch w) :=
      changedSwitch_eq_ok_iff.2 (hvalues (.switch w))
    simp [override, hchanges, hcount, hswitch, bind, Except.bind, pure, Except.pure, count, switch,
      s'.columnLimit_pos]

/-! ### The last setting of a field -/

theorem lastGiven_append (f : Field) (front back : Overrides) :
    lastGiven f (front ++ back) = (lastGiven f back).or (lastGiven f front) := by
  simp [lastGiven, List.find?_append, Option.map_or]

theorem lastGiven_cons (f : Field) (p : Json.Letters × Json.Value) (rest : Overrides) :
    lastGiven f (p :: rest) =
      (lastGiven f rest).or (if Names f p.1 then some (converted f p.2) else none) := by
  rw [← List.singleton_append, lastGiven_append]
  by_cases h : Names f p.1 <;> simp [lastGiven, h]

theorem lastFor_cons (f : Field) (q : Field × Json.Value) (rest : List (Field × Json.Value)) :
    lastFor f (q :: rest) = (lastFor f rest).or (if q.1 = f then some q.2 else none) := by
  by_cases h : q.1 = f <;> simp [lastFor, List.find?_append, h]

/-- Settings that are resolved give a field its last value. -/
theorem lastFor_of_mapM {settings : Overrides} {changes : List (Field × Json.Value)}
    (h : settings.mapM resolve = .ok changes) (f : Field) :
    lastFor f changes = lastGiven f settings := by
  induction settings generalizing changes with
  | nil =>
    cases h
    rfl
  | cons p settings ih =>
    rw [List.mapM_cons] at h
    obtain ⟨q, hq, h⟩ := bind_eq_ok.1 h
    obtain ⟨rest, hrest, h⟩ := bind_eq_ok.1 h
    cases h
    obtain ⟨-, hname, hvalue⟩ := resolve_eq_ok_iff.1 hq
    rw [lastFor_cons, lastGiven_cons, ih hrest, hvalue]
    by_cases hf : q.1 = f
    · subst hf
      rw [if_pos rfl, if_pos hname]
    · have hother : ¬ Names f p.1 := fun h => hf (hname.unique h)
      rw [if_neg hf, if_neg hother]

theorem exists_mapM_iff {settings : Overrides} :
    (∃ changes, settings.mapM resolve = .ok changes) ↔ ∀ p ∈ settings, Understood p := by
  induction settings with
  | nil => simp [pure, Except.pure]
  | cons p settings ih =>
    rw [List.forall_mem_cons, ← ih, List.mapM_cons]
    constructor
    · rintro ⟨changes, h⟩
      obtain ⟨q, hq, h⟩ := bind_eq_ok.1 h
      obtain ⟨rest, hrest, -⟩ := bind_eq_ok.1 h
      exact ⟨(resolve_eq_ok_iff.1 hq).1, rest, hrest⟩
    · rintro ⟨hp, rest, hrest⟩
      obtain ⟨f, hf⟩ := hp.1
      refine ⟨(f, converted f p.2) :: rest, ?_⟩
      rw [(resolve_eq_ok_iff (q := (f, converted f p.2))).2 ⟨hp, hf, rfl⟩, hrest]
      rfl

/-- Settings that are understood give each field the value of its last setting. -/
theorem override_eq_ok_iff {settings : Overrides} {s s' : Style} :
    override settings s = .ok s' ↔
      (∀ p ∈ settings, Understood p) ∧
        ∀ f, s'.value f = (lastGiven f settings).getD (s.value f) := by
  rw [override_eq_ok_iff_changes, ← exists_mapM_iff]
  constructor
  · rintro ⟨changes, hchanges, hvalues⟩
    refine ⟨⟨changes, hchanges⟩, fun f => ?_⟩
    rw [← hvalues f, lastFor_of_mapM hchanges]
  · rintro ⟨⟨changes, hchanges⟩, hvalues⟩
    refine ⟨changes, hchanges, fun f => ?_⟩
    rw [hvalues f, lastFor_of_mapM hchanges]

theorem override_nil (s : Style) : override [] s = .ok s :=
  override_eq_ok_iff.2 ⟨by simp, fun _ => rfl⟩

/-- Settings are taken if and only if they are understood and the last value for each field, or the
value that it has, fits. -/
theorem exists_override_iff {settings : Overrides} {s : Style} :
    (∃ s', override settings s = .ok s') ↔
      (∀ p ∈ settings, Understood p) ∧
        ∀ f, Fits f ((lastGiven f settings).getD (s.value f)) := by
  constructor
  · rintro ⟨s', h⟩
    obtain ⟨hsettings, hvalues⟩ := override_eq_ok_iff.1 h
    exact ⟨hsettings, fun f => hvalues f ▸ fits_value s' f⟩
  · rintro ⟨hsettings, hfits⟩
    obtain ⟨s', hs'⟩ := exists_value_eq hfits
    exact ⟨s', override_eq_ok_iff.2 ⟨hsettings, hs'⟩⟩

/-! ### Settings one after another -/

/-- A style behind an attempt to change it. -/
def attempt (s : Style) (settings : Overrides) : Style :=
  match override settings s with
  | .ok s' => s'
  | .error _ => s

/-- The lists of settings that are taken, of several that are tried in turn. -/
def taken (s : Style) : List Overrides → List Overrides
  | [] => []
  | settings :: rest =>
    match override settings s with
    | .ok s' => settings :: taken s' rest
    | .error _ => taken s rest

/-- The style behind several attempts has the last values of those that are taken. -/
theorem value_foldl_attempt (s : Style) (rounds : List Overrides) (f : Field) :
    (rounds.foldl attempt s).value f =
      (lastGiven f (taken s rounds).flatten).getD (s.value f) := by
  induction rounds generalizing s with
  | nil => rfl
  | cons settings rest ih =>
    rw [List.foldl_cons, ih, taken, attempt]
    cases h : override settings s with
    | error fault => rfl
    | ok s' =>
      have hvalue := (override_eq_ok_iff.1 h).2 f
      simp only [List.flatten_cons, lastGiven_append, hvalue]
      cases lastGiven f (taken s' rest).flatten <;> rfl

/-- Settings that are taken one list after another are as good as all of them in a row. -/
theorem value_of_foldlM {rounds : List Overrides} {s s' : Style}
    (h : rounds.foldlM (fun style settings => override settings style) s = .ok s') (f : Field) :
    s'.value f = (lastGiven f rounds.flatten).getD (s.value f) := by
  induction rounds generalizing s with
  | nil =>
    cases h
    rfl
  | cons settings rest ih =>
    rw [List.foldlM_cons] at h
    obtain ⟨next, hnext, h⟩ := bind_eq_ok.1 h
    rw [ih h, (override_eq_ok_iff.1 hnext).2 f, List.flatten_cons, lastGiven_append]
    cases lastGiven f rest.flatten <;> rfl

end Style

/-! ### Options of a command line -/

namespace Command.Format

open Style

/-- The settings of the style file that a run starts from. -/
def fileSettings (read : ReadFile) : Base → Except StyleFault Overrides
  | .standard => .ok []
  | .file path => settingsOf read path
  | .unnamed => .error .unnamed

/-- Settings that come from options: at most one for each field, under its own name, and no word. -/
structure FromOptions (settings : Overrides) : Prop where
  nodup : (settings.map (·.1)).Nodup
  named : ∀ p ∈ settings, ∃ f : Field, p.1 = .ofString f.name ∧ ∀ word, p.2 ≠ .string word

theorem names_name (f : Field) : Names f (.ofString f.name) := by
  refine ⟨(f.name, f), List.mem_append_right _ (List.mem_map.2 ⟨f, ?_, rfl⟩), rfl, rfl⟩
  rcases f with (_ | _ | _ | _) | (_ | _ | _ | _) <;> decide

/-- A member that is put into an object leaves the names as they are or adds its own. -/
theorem map_fst_insert (settings : Overrides) (name : Json.Letters) (v : Json.Value) :
    (Json.insert settings name v).map (·.1) =
      if name ∈ settings.map (·.1) then settings.map (·.1) else settings.map (·.1) ++ [name] := by
  have hany : settings.any (·.1 = name) = true ↔ name ∈ settings.map (·.1) := by simp
  unfold Json.insert
  split
  · rename_i h
    rw [if_pos (hany.1 h), List.map_map]
    refine List.map_congr_left fun p _ => ?_
    by_cases hp : p.1 = name <;> simp [hp]
  · rename_i h
    rw [if_neg (mt hany.2 h), List.map_append]
    rfl

theorem mem_of_mem_insert {settings : Overrides} {name : Json.Letters} {v : Json.Value}
    {p : Json.Letters × Json.Value} (h : p ∈ Json.insert settings name v) :
    p ∈ settings ∨ p = (name, v) := by
  unfold Json.insert at h
  split at h
  · obtain ⟨q, hq, rfl⟩ := List.mem_map.1 h
    by_cases hname : q.1 = name
    · simp [hname]
    · simp [hname, hq]
  · simpa using h

theorem FromOptions.setStyle {s : Settings} (h : FromOptions s.style) {f : Field} {v : Json.Value}
    (hv : ∀ word, v ≠ .string word) : FromOptions (setStyle f v s).style := by
  constructor
  · show ((Json.insert s.style (.ofString f.name) v).map (·.1)).Nodup
    rw [map_fst_insert]
    split
    · exact h.nodup
    · rename_i hnew
      rw [← List.concat_eq_append]
      exact h.nodup.concat hnew
  · intro p hp
    rcases mem_of_mem_insert hp with hp | rfl
    · exact h.named p hp
    · exact ⟨f, rfl, hv⟩

theorem fromOptions_of_parse {words : List Text} {s : Settings}
    (h : CommandLine.parse grammar {} words = .ok s) : FromOptions s.style := by
  have hcount (name : String) (c : Count) :
      (countOption name c).Keeps fun s : Settings => FromOptions s.style := by
    refine CommandLine.Choice.keeps_integer name fun n s hs => hs.setStyle ?_
    cases n <;> simp [countValue]
  have hswitch (names : List String) (w : Switch) :
      (switchOption names w).Keeps fun s : Settings => FromOptions s.style :=
    CommandLine.Choice.keeps_toggle names fun b s hs => hs.setStyle (by simp)
  refine CommandLine.parse_keeps (P := fun s => FromOptions s.style) (g := grammar) ?_ ?_ ?_ h
  · simp only [grammar, List.forall_mem_cons, List.not_mem_nil, false_implies, implies_true,
      and_true, hcount, hswitch, true_and]
    have hflag (names : List String) {set : Settings → Settings}
        (h : ∀ s, (set s).style = s.style) :
        (CommandLine.Choice.flag names set).Keeps fun s : Settings => FromOptions s.style :=
      CommandLine.Choice.keeps_flag names fun s hs => (h s).symm ▸ hs
    exact ⟨CommandLine.Choice.keeps_help, CommandLine.Choice.keeps_word _ fun _ _ hs => hs,
      hflag _ fun _ => rfl, hflag _ fun _ => rfl, hflag _ fun _ => rfl⟩
  · exact fun _ _ hs => hs
  · exact ⟨List.nodup_nil, by simp⟩

/-- The last setting of a field among options is its option. -/
theorem FromOptions.lastGiven_eq {settings : Overrides} (h : FromOptions settings) (f : Field) :
    lastGiven f settings = settings.lookup (.ofString f.name) := by
  induction settings with
  | nil => rfl
  | cons p rest ih =>
    obtain ⟨name, v⟩ := p
    obtain ⟨hnew, hrest⟩ := List.nodup_cons.1 h.nodup
    obtain ⟨⟨g, hname, hv⟩, hnamed⟩ := List.forall_mem_cons.1 h.named
    change name = .ofString g.name at hname
    subst hname
    rw [lastGiven_cons, ih ⟨hrest, hnamed⟩, List.lookup_cons]
    by_cases hf : f = g
    · subst hf
      have hgone : rest.lookup (.ofString f.name) = none := by
        rw [List.lookup_eq_none_iff]
        intro p hp
        have hmem := List.mem_map_of_mem (f := (·.1)) hp
        rw [bne_iff_ne]
        intro heq
        exact hnew (heq ▸ hmem)
      rw [hgone, if_pos (names_name f), converted_of_ne_string hv]
      simp
    · have hnames : ¬ Names f (.ofString g.name) := fun h => hf (h.unique (names_name g))
      have hne : Json.Letters.ofString f.name ≠ .ofString g.name := fun heq =>
        hnames (heq ▸ names_name f)
      rw [if_neg hnames, beq_eq_false_iff_ne.2 hne]
      simp

theorem change_eq_ok_iff {settings : Overrides} {s s' : Style} :
    change settings s = .ok s' ↔ override settings s = .ok s' := by
  unfold change
  cases override settings s <;> simp

/-- The style of a run comes from the settings of its style file and, behind them, its options. -/
theorem styleOf_eq_ok {read : ReadFile} {s : Settings} {style : Style}
    (h : styleOf read s = .ok style) :
    ∃ file, fileSettings read s.base = .ok file ∧
      [file, s.style].foldlM (fun style settings => override settings style) .standard =
        .ok style := by
  obtain ⟨base, hbase, h⟩ := bind_eq_ok.1 h
  have hoptions := change_eq_ok_iff.1 h
  cases hs : s.base with
  | standard =>
    rw [hs] at hbase
    cases hbase
    refine ⟨[], rfl, ?_⟩
    simp only [List.foldlM_cons, List.foldlM_nil, override_nil, bind, Except.bind, hoptions]
    rfl
  | file path =>
    rw [hs] at hbase
    obtain ⟨file, hfile, hbase⟩ := bind_eq_ok.1 hbase
    refine ⟨file, hfile, ?_⟩
    simp only [List.foldlM_cons, List.foldlM_nil, change_eq_ok_iff.1 hbase, bind, Except.bind,
      hoptions]
    rfl
  | unnamed =>
    rw [hs] at hbase
    cases hbase

/-- Settings change a style if and only if their keys and words are known and the last value for
each field fits; the style then has those values, from one list or from several one after another,
while lists that are refused leave it as it is. So the options of a command line come before its
style file, and that before the standard style. -/
theorem overrides_last_wins (s : Style) :
    (∀ (rounds : List Overrides) f, Fits f ((rounds.foldl attempt s).value f) ∧
      (rounds.foldl attempt s).value f = (lastGiven f (taken s rounds).flatten).getD (s.value f)) ∧
    (∀ settings, (∃ s', override settings s = .ok s') ↔
      (∀ p ∈ settings, Understood p) ∧
        ∀ f, Fits f ((lastGiven f settings).getD (s.value f))) ∧
    (∀ (rounds : List Overrides) s',
      rounds.foldlM (fun style settings => override settings style) s = .ok s' →
      ∀ f, s'.value f = (lastGiven f rounds.flatten).getD (s.value f)) ∧
    (∀ read words settings style, CommandLine.parse grammar {} words = .ok settings →
      styleOf read settings = .ok style →
      ∃ file, fileSettings read settings.base = .ok file ∧
        ∀ f, style.value f = ((settings.style.lookup (.ofString f.name)).or
          (lastGiven f file)).getD (Style.standard.value f)) := by
  refine ⟨fun rounds f => ⟨fits_value _ f, value_foldl_attempt s rounds f⟩,
    fun settings => exists_override_iff, fun rounds s' h => value_of_foldlM h, ?_⟩
  intro read words settings style hparse hstyle
  obtain ⟨file, hfile, hrounds⟩ := styleOf_eq_ok hstyle
  refine ⟨file, hfile, fun f => ?_⟩
  calc style.value f
      = (lastGiven f [file, settings.style].flatten).getD (Style.standard.value f) :=
        value_of_foldlM hrounds f
    _ = ((lastGiven f settings.style).or (lastGiven f file)).getD (Style.standard.value f) := by
        rw [← lastGiven_append]
        simp
    _ = _ := by rw [(fromOptions_of_parse hparse).lastGiven_eq]

/-- An option over a style file that sets a field twice, first to a value that does not fit. -/
theorem overrides_last_wins_sample :
    let words := ["--config".toList, "style".toList, "--column-limit=80".toList, "list".toList]
    let read : ReadFile := fun _ =>
      .ok "\x7b\"IndentWidth\": -1, \"indent_width\": 2, \"BlankLinesAroundIf\": false\x7d".toList
    let style : Style := { indentWidth := 2, columnLimit := 80, spaceControl := false }
    ∃ settings, CommandLine.parse grammar {} words = .ok settings ∧
      styleOf read settings = .ok style ∧
      ∃ file, fileSettings read settings.base = .ok file ∧
        ∀ f, style.value f = ((settings.style.lookup (.ofString f.name)).or
          (lastGiven f file)).getD (Style.standard.value f) := by
  intro words read style
  have h : ((CommandLine.parse grammar {} words).toOption.bind fun settings =>
      (styleOf read settings).toOption) = some style := by decide +kernel
  obtain ⟨settings, hparse, hstyle⟩ := Option.bind_eq_some_iff.1 h
  rw [toOption_eq_some_iff] at hparse hstyle
  exact ⟨settings, hparse, hstyle,
    (overrides_last_wins .standard).2.2.2 read words settings style hparse hstyle⟩

end Command.Format

end Listfile
