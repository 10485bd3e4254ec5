import Listfile.CommandLine.Match

/-! What the words of a command line leave behind. The settings of a run are
changed by options only, each by the action of its own choice, so whatever holds
at the start and is kept by every choice of the grammar holds of the settings
that the words come to, in whatever order and under whatever names the options
are called. -/

namespace Listfile

theorem bind_eq_ok {α β ε : Type} {run : Except ε α} {next : α → Except ε β} {b : β} :
    (run >>= next) = .ok b ↔ ∃ a, run = .ok a ∧ next a = .ok b := by
  cases run with
  | error fault => simp [bind, Except.bind]
  | ok a => simp [bind, Except.bind]

theorem toOption_eq_some_iff {α ε : Type} {run : Except ε α} {a : α} :
    run.toOption = some a ↔ run = .ok a := by
  cases run <;> simp [Except.toOption]

namespace CommandLine

variable {σ : Type} {P : σ → Prop} {g : Grammar σ}

/-- Carrying out an option keeps what holds of the settings. -/
def Choice.Keeps (P : σ → Prop) (c : Choice σ) : Prop :=
  match c.action with
  | .flag set => ∀ name s, P s → P (set name s)
  | .value set => ∀ word s s', P s → set word s = .ok s' → P s'
  | .help => True

namespace Choice

theorem keeps_help : (help : Choice σ).Keeps P := trivial

theorem keeps_integer (name : String) {set : Option Int → σ → σ}
    (h : ∀ n s, P s → P (set n s)) : (integer name set).Keeps P := by
  intro word s s' hs hset
  cases word with
  | none =>
    cases hset
    exact h _ _ hs
  | some word =>
    simp only at hset
    split at hset
    · cases hset
      exact h _ _ hs
    · cases hset

theorem keeps_word (name : String) {set : Option Text → σ → σ}
    (h : ∀ t s, P s → P (set t s)) : (word name set).Keeps P := by
  intro t s s' hs hset
  cases hset
  exact h _ _ hs

theorem keeps_flag (names : List String) {set : σ → σ} (h : ∀ s, P s → P (set s)) :
    (flag names set).Keeps P := fun _ => h

theorem keeps_toggle (names : List String) {set : Bool → σ → σ}
    (h : ∀ b s, P s → P (set b s)) : (toggle names set).Keeps P := fun _ => h _

end Choice

/-! ### Calls -/

theorem mem_of_choice? {name : Text} {c : Choice σ} (h : g.choice? name = some c) :
    c ∈ g.choices :=
  List.mem_of_find?_eq_some h

/-- Options that share a word are options of the grammar. -/
theorem callsFrom_choices {choice : Choice σ} (hchoice : choice ∈ g.choices) (name attached : Text)
    {found : List (Call σ)} (h : callsFrom g choice name attached = .ok found) :
    ∀ c ∈ found, c.choice ∈ g.choices := by
  fun_induction callsFrom g choice name attached generalizing found with
  | case1 choice name attached hwants =>
    cases h
    simpa using hchoice
  | case2 => cases h
  | case3 => cases h
  | case4 => cases h
  | case5 choice name d hwants hdashes next hnext =>
    cases h
    simpa using ⟨hchoice, mem_of_choice? hnext⟩
  | case6 choice name d hwants hdashes next hnext e rest ih =>
    obtain ⟨more, hmore, heq⟩ := bind_eq_ok.1 h
    cases heq
    intro c hc
    rcases List.mem_cons.1 hc with rfl | hc
    · exact hchoice
    · exact ih (mem_of_choice? hnext) hmore c hc

theorem calls_choices {choice : Choice σ} (hchoice : choice ∈ g.choices) (name : Text)
    {attached : Option Text} {found : List (Call σ)}
    (h : calls g choice name attached = .ok found) : ∀ c ∈ found, c.choice ∈ g.choices := by
  cases attached with
  | none =>
    cases h
    simpa using hchoice
  | some attached => exact callsFrom_choices hchoice name attached h

theorem Call.provide_choice (word : Text) (c : Call σ) : (c.provide word).choice = c.choice := by
  unfold Call.provide
  split <;> rfl

/-! ### Taking words -/

namespace Progress

theorem call_keeps {c : Call σ} {p p' : Progress σ} (hc : c.choice.Keeps P)
    (h : p.call c = .ok p') (hp : P p.settings) : P p'.settings := by
  obtain ⟨choice, name, value⟩ := c
  unfold call at h
  unfold Choice.Keeps at hc
  cases haction : choice.action with
  | flag set =>
    simp only [haction] at h hc
    cases h
    exact hc _ _ hp
  | value set =>
    cases value with
    | none => simp [haction] at h
    | some word =>
      simp only [haction] at h hc
      split at h
      · rename_i settings hset
        cases h
        exact hc _ _ _ hp hset
      · cases h
  | help => simp [haction] at h

theorem callAll_keeps {found : List (Call σ)} {p p' : Progress σ}
    (hfound : ∀ c ∈ found, c.choice.Keeps P) (h : p.callAll found = .ok p') (hp : P p.settings) :
    P p'.settings := by
  induction found generalizing p with
  | nil =>
    cases h
    exact hp
  | cons c rest ih =>
    obtain ⟨q, hq, h⟩ := bind_eq_ok.1 h
    rw [List.forall_mem_cons] at hfound
    exact ih hfound.2 h (call_keeps hfound.1 hq hp)

@[simp] theorem plain_settings (word : Text) (p : Progress σ) :
    (p.plain g word).settings = p.settings := by
  unfold plain
  split
  · rfl
  · split <;> rfl
  · rfl

@[simp] theorem separator_settings (p : Progress σ) : (p.separator g).settings = p.settings := by
  unfold separator
  split
  · rfl
  · split <;> rfl
  · rfl

end Progress

/-- Only the options of the grammar change the settings. -/
theorem take_keeps (hoptions : ∀ c ∈ g.choices, c.Keeps P) :
    ∀ (words : List Word) {p p' : Progress σ}, take g p words = .ok p' → P p.settings →
      P p'.settings
  | [], p, p', h, hp => by
    rw [take] at h
    cases h
    exact hp
  | .plain word :: rest, p, p', h, hp => by
    rw [take] at h
    exact take_keeps hoptions rest h (by simpa using hp)
  | .separator :: rest, p, p', h, hp => by
    rw [take] at h
    exact take_keeps hoptions rest h (by simpa using hp)
  | .stray word :: rest, p, p', h, hp => by
    rw [take] at h
    exact take_keeps hoptions rest h hp
  | .option name attached :: rest, p, p', h, hp => by
    rw [take] at h
    split at h
    · exact take_keeps hoptions rest h hp
    · rename_i choice hchoice
      obtain ⟨found, hfound, h⟩ := bind_eq_ok.1 h
      have hkeeps : ∀ c ∈ found, c.choice.Keeps P := by
        intro c hc
        apply hoptions
        exact calls_choices (mem_of_choice? hchoice) name hfound c hc
      split at h
      · obtain ⟨q, hq, h⟩ := bind_eq_ok.1 h
        exact take_keeps hoptions rest h (Progress.callAll_keeps hkeeps hq hp)
      · split at h
        · rename_i word rest _
          obtain ⟨q, hq, h⟩ := bind_eq_ok.1 h
          -- The word goes to one of the calls; their choices are the same as before.
          have hprovided : ∀ c ∈ found.map (·.provide word), c.choice.Keeps P := by
            intro c hc
            obtain ⟨d, hd, rfl⟩ := List.mem_map.1 hc
            rw [Call.provide_choice]
            exact hkeeps d hd
          exact take_keeps hoptions rest h (Progress.callAll_keeps hprovided hq hp)
        · cases h

/-- What holds of the settings at the start and is kept by all options holds of the settings of a
command line. -/
theorem parse_keeps (hoptions : ∀ c ∈ g.choices, c.Keeps P)
    (hpositional : ∀ words s, P s → P (g.setPositional words s)) {start s : σ} (hstart : P start)
    {words : List Text} (h : parse g start words = .ok s) : P s := by
  obtain ⟨classes, -, h⟩ := bind_eq_ok.1 h
  obtain ⟨p, hp, h⟩ := bind_eq_ok.1 h
  have hsettings : P p.settings := take_keeps hoptions classes hp hstart
  split at h
  · cases h
  all_goals
    split at h
    · cases h
      exact hpositional _ _ hsettings
    · cases h

end CommandLine

end Listfile
