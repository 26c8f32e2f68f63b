import RubyLanguageServer.Proofs.Idle
/-!
# Progress

A session reads frame after frame, a frame is read header line after header line, and its content
portion after portion. The three loops are taken apart here into single calls of the stream, which
delivers portions of any size. Every call takes a byte or finds the end, so that a reading is over
after one call more than there are bytes at the latest, and a session after one reading more.
-/
namespace RubyLanguageServer

/-- So many steps lead from one state to another. -/
inductive Steps {α : Type} (R : α → α → Prop) : Nat → α → α → Prop
  | refl (a : α) : Steps R 0 a a
  | head {n : Nat} {a b c : α} : R a b → Steps R n b c → Steps R (n + 1) a c

namespace Steps

variable {α β : Type} {R : α → α → Prop} {size : α → Nat} {n : Nat} {a b : α}

/-- What every step makes smaller bounds the number of steps. -/
theorem add_le (h : Steps R n a b) (hstep : ∀ ⦃a b⦄, R a b → size b < size a) :
    n + size b ≤ size a := by
  induction h with
  | refl a => exact Nat.le_of_eq (Nat.zero_add _)
  | head hfirst _ ih =>
    have hlt := hstep hfirst
    omega

theorem map_eq {f : α → β} (h : Steps R n a b) (hstep : ∀ ⦃a b⦄, R a b → f b = f a) :
    f b = f a := by
  induction h with
  | refl a => rfl
  | head hfirst _ ih => exact ih.trans (hstep hfirst)

/-- If every step makes something smaller, then steps lead to where there is no further one. -/
theorem exists_last (hstep : ∀ ⦃a b⦄, R a b → size b < size a) (a : α) :
    ∃ n b, Steps R n a b ∧ ∀ c, ¬R b c := by
  induction hn : size a using Nat.strongRecOn generalizing a with
  | ind k ih =>
    by_cases hnext : ∃ b, R a b
    · obtain ⟨b, hb⟩ := hnext
      obtain ⟨n, c, hsteps, hlast⟩ := ih (size b) (hn ▸ hstep hb) b rfl
      exact ⟨n + 1, c, .head hb hsteps, hlast⟩
    · exact ⟨0, a, .refl a, fun b hb => hnext ⟨b, hb⟩⟩

end Steps

namespace Frame

/-- Where a reading stands between two calls of the stream: it waits for a header line, or for
content of which a part is there, or it is over. -/
inductive Phase where
  | headers (seen : Entries Text)
  | content (length : Nat) (got : Bytes) (missing : got.length < length)
  | finished (reading : Reading)

namespace Phase

/-- Goes on reading content while some of it is missing. -/
def fill (length : Nat) (got : Bytes) : Phase :=
  if missing : got.length < length then .content length got missing else .finished (reading got)

def ofHeaders (hs : Entries Text) : Phase :=
  match contentLength hs with
  | .bad e => .finished (.broken e)
  | .excess e => .finished (.excess e)
  | .ok n => fill n []

/-- Takes a line; there is nothing in it at the end of the stream. -/
def ofLine (seen : Entries Text) (line : Bytes) : Phase :=
  if line = [] then
    if seen = [] then .finished .closed else .finished (.broken .endInHeaders)
  else if isBlankLine line then
    if seen = [] then .headers [] else ofHeaders seen
  else
    match header line with
    | .error e => .finished (.broken e)
    | .ok (name, value) => .headers (Entries.insert name value seen)

/-- Takes a portion of the content; there is nothing in it at the end of the stream. -/
def ofPortion (length : Nat) (got portion : Bytes) : Phase :=
  if portion = [] then .finished (.broken (.endInContent length got.length))
  else fill length (got ++ portion)

end Phase

/-- A call for so many bytes delivers some of the next ones, and none only at the end. -/
structure Delivers (n : Nat) (bytes portion rest : Bytes) : Prop where
  bytes_eq : bytes = portion ++ rest
  length_le : portion.length ≤ n
  ne_nil : bytes ≠ [] → portion ≠ []

/-- One call of the stream, and what the reading makes of it. -/
inductive Fetch : Phase × Bytes → Phase × Bytes → Prop
  | line (seen : Entries Text) (bytes : Bytes) :
      Fetch (.headers seen, bytes) (.ofLine seen (splitLine bytes).1, (splitLine bytes).2)
  | portion {length : Nat} {got bytes portion rest : Bytes} (missing : got.length < length) :
      Delivers (length - got.length) bytes portion rest →
      Fetch (.content length got missing, bytes) (.ofPortion length got portion, rest)

def callsLeft : Phase × Bytes → Nat
  | (.finished _, _) => 0
  | (_, bytes) => bytes.length + 1

private theorem callsLeft_le (phase : Phase) (bytes : Bytes) :
    callsLeft (phase, bytes) ≤ bytes.length + 1 := by
  cases phase <;> simp [callsLeft]

theorem callsLeft_fetch {c c' : Phase × Bytes} (h : Fetch c c') : callsLeft c' < callsLeft c := by
  cases h with
  | line seen bytes =>
    by_cases hline : (splitLine bytes).1 = []
    · rw [Phase.ofLine, if_pos hline]
      split <;> exact Nat.succ_pos _
    · have hrest := splitLine_length_lt hline
      exact Nat.lt_of_le_of_lt (callsLeft_le _ _) (Nat.succ_lt_succ hrest)
  | @portion length got bytes portion rest missing hdelivers =>
    by_cases hportion : portion = []
    · rw [Phase.ofPortion, if_pos hportion]
      exact Nat.succ_pos _
    · have hpos := List.length_pos_iff.mpr hportion
      have hrest : rest.length < bytes.length := by
        rw [hdelivers.bytes_eq, List.length_append]
        omega
      exact Nat.lt_of_le_of_lt (callsLeft_le _ _) (Nat.succ_lt_succ hrest)

theorem exists_fetch {phase : Phase} (h : ∀ reading, phase ≠ .finished reading) (bytes : Bytes) :
    ∃ next, Fetch (phase, bytes) next := by
  cases phase with
  | finished reading => exact absurd rfl (h reading)
  | headers seen => exact ⟨_, .line seen bytes⟩
  | content length got missing =>
    obtain ⟨hbytes, hlength, hend⟩ := Source.read_delivers (length - got.length) ⟨bytes, []⟩
    refine ⟨_, .portion missing ⟨hbytes, hlength, fun hne hnil => ?_⟩⟩
    exact (hend hnil).elim (by omega) hne

/-- What the content of a frame gives, when a part of it is there and the rest is to come. -/
def restOfContent (length : Nat) (got bytes : Bytes) : Reading × Bytes :=
  let whole := got ++ bytes.take (length - got.length)
  (if whole.length < length then .broken (.endInContent length whole.length) else reading whole,
    bytes.drop (length - got.length))

def behindHeaders (hs : Entries Text) (bytes : Bytes) : Reading × Bytes :=
  match contentLength hs with
  | .bad e => (.broken e, bytes)
  | .excess e => (.excess e, bytes)
  | .ok n => restOfContent n [] bytes

/-- What a reading will find, and what it will leave. -/
def outcome : Phase × Bytes → Reading × Bytes
  | (.finished reading, bytes) => (reading, bytes)
  | (.content length got _, bytes) => restOfContent length got bytes
  | (.headers seen, bytes) =>
    match headers seen bytes with
    | (.error e, rest) => (.broken e, rest)
    | (.ok none, rest) => (.closed, rest)
    | (.ok (some hs), rest) => behindHeaders hs rest

private theorem outcome_fill {length : Nat} {got : Bytes} (h : got.length ≤ length)
    (bytes : Bytes) :
    outcome (.fill length got, bytes) = restOfContent length got bytes := by
  rw [Phase.fill]
  split
  · rfl
  · rename_i hwhole
    have hlength : length - got.length = 0 := by omega
    simp only [outcome, restOfContent, hlength, List.take_zero, List.append_nil, List.drop_zero,
      if_neg hwhole]

private theorem outcome_ofHeaders (hs : Entries Text) (bytes : Bytes) :
    outcome (.ofHeaders hs, bytes) = behindHeaders hs bytes := by
  rw [Phase.ofHeaders, behindHeaders]
  cases contentLength hs with
  | bad e => rfl
  | excess e => rfl
  | ok n => exact outcome_fill (Nat.zero_le n) bytes

private theorem outcome_ofLine (seen : Entries Text) (bytes : Bytes) :
    outcome (.ofLine seen (splitLine bytes).1, (splitLine bytes).2) =
      outcome (.headers seen, bytes) := by
  rw [Phase.ofLine]
  conv_rhs => rw [outcome, headers]
  by_cases hline : (splitLine bytes).1 = []
  · by_cases hseen : seen = []
    · simp only [if_pos hline, if_pos hseen, outcome]
    · simp only [if_pos hline, if_neg hseen, outcome]
  · simp only [if_neg hline]
    by_cases hblank : isBlankLine (splitLine bytes).1 = true
    · by_cases hseen : seen = []
      · simp only [if_pos hblank, if_pos hseen, outcome]
      · simp only [if_pos hblank, if_neg hseen, outcome_ofHeaders]
    · simp only [if_neg hblank]
      rcases header (splitLine bytes).1 with e | ⟨name, value⟩ <;> rfl

/-- It does not matter whether a part of the content is there already or comes next. -/
theorem restOfContent_append {length : Nat} {got portion : Bytes}
    (h : portion.length ≤ length - got.length) (rest : Bytes) :
    restOfContent length (got ++ portion) rest = restOfContent length got (portion ++ rest) := by
  have hlength : length - (got ++ portion).length = length - got.length - portion.length := by
    rw [List.length_append]
    omega
  simp only [restOfContent, hlength, List.take_append, List.take_of_length_le h, List.drop_append,
    List.drop_of_length_le h, List.append_assoc, List.nil_append]

private theorem outcome_ofPortion {length : Nat} {got bytes portion rest : Bytes}
    (missing : got.length < length) (h : Delivers (length - got.length) bytes portion rest) :
    outcome (.ofPortion length got portion, rest) = restOfContent length got bytes := by
  obtain ⟨rfl, hle, hne⟩ := h
  rw [Phase.ofPortion]
  split
  · rename_i hportion
    subst hportion
    have hrest : rest = [] := not_not.mp fun hrest => hne hrest rfl
    simp only [hrest, outcome, restOfContent, List.append_nil, List.take_nil, List.drop_nil,
      if_pos missing]
  · have hgot : (got ++ portion).length ≤ length := by
      rw [List.length_append]
      omega
    rw [outcome_fill hgot, restOfContent_append hle]

/-- A call changes nothing in what the reading will find. -/
theorem outcome_fetch {c c' : Phase × Bytes} (h : Fetch c c') : outcome c' = outcome c := by
  cases h with
  | line seen bytes => exact outcome_ofLine seen bytes
  | portion missing hdelivers => exact outcome_ofPortion missing hdelivers

private theorem outcome_start (bytes : Bytes) (pace : List Nat) :
    outcome (.headers [], bytes) = ((read ⟨bytes, pace⟩).1, (read ⟨bytes, pace⟩).2.bytes) := by
  rw [outcome, read]
  rcases headers [] bytes with ⟨_ | _ | hs, rest⟩
  · rfl
  · rfl
  · simp only [behindHeaders]
    cases contentLength hs with
    | bad e => rfl
    | excess e => rfl
    | ok n =>
      obtain ⟨hcontent, hrest⟩ := Source.readExact_bytes n ⟨rest, pace⟩
      simp only [restOfContent, List.length_nil, Nat.sub_zero, List.nil_append, ← hcontent, ← hrest]
      split <;> rfl

/-- By whatever calls a reading comes to its end, it finds the same. -/
theorem read_of_finished {n : Nat} {bytes rest : Bytes} {reading : Reading}
    (h : Steps Fetch n (.headers [], bytes) (.finished reading, rest)) (pace : List Nat) :
    (read ⟨bytes, pace⟩).1 = reading ∧ (read ⟨bytes, pace⟩).2.bytes = rest := by
  have houtcome := h.map_eq fun _ _ => outcome_fetch
  rw [outcome_start bytes pace] at houtcome
  exact ⟨(congrArg Prod.fst houtcome).symm, (congrArg Prod.snd houtcome).symm⟩

theorem exists_finished (bytes : Bytes) : ∃ n, Steps Fetch n (.headers [], bytes)
    (.finished (read ⟨bytes, []⟩).1, (read ⟨bytes, []⟩).2.bytes) := by
  obtain ⟨n, ⟨phase, rest⟩, hsteps, hlast⟩ :=
    Steps.exists_last (R := Fetch) (fun _ _ => callsLeft_fetch) (.headers [], bytes)
  by_cases hfinished : ∃ reading, phase = .finished reading
  · obtain ⟨reading, rfl⟩ := hfinished
    obtain ⟨rfl, rfl⟩ := read_of_finished hsteps []
    exact ⟨n, hsteps⟩
  · obtain ⟨next, hnext⟩ := exists_fetch (not_exists.mp hfinished) rest
    exact absurd hnext (hlast next)

private theorem length_lt_of_finished {n : Nat} {bytes rest : Bytes} {reading : Reading}
    (h : Steps Fetch n (.headers [], bytes) (.finished reading, rest)) (hopen : reading ≠ .closed) :
    rest.length < bytes.length := by
  obtain ⟨hreading, hrest⟩ := read_of_finished h []
  rw [← hrest]
  exact read_length_lt (s := ⟨bytes, []⟩) (hreading ▸ hopen)

end Frame

namespace Session

variable {σ : Type} {r : Registry σ}

/-- A session between two readings: the bytes to come, and how it has ended if it has. -/
structure Moment (σ : Type) where
  ending : Option Ending
  bytes : Bytes
  session : Session σ

def Moment.readingsLeft (m : Moment σ) : Nat :=
  match m.ending with
  | some _ => 0
  | none => m.bytes.length + 1

section

variable [Stack]

/-- A reading, by whatever calls of the stream, and its processing. -/
inductive Turn (r : Registry σ) : Moment σ → Moment σ → Prop
  | intro {n : Nat} {bytes rest : Bytes} {reading : Reading} (s : Session σ) :
      Steps Frame.Fetch n (.headers [], bytes) (.finished reading, rest) →
      Turn r ⟨none, bytes, s⟩ ⟨(step r reading s).1, rest, (step r reading s).2⟩

theorem readingsLeft_turn {m m' : Moment σ} (h : Turn r m m') :
    m'.readingsLeft < m.readingsLeft := by
  cases h with
  | @intro n bytes rest reading s hfinished =>
    rw [Moment.readingsLeft]
    split
    · exact Nat.succ_pos _
    · rename_i hgoes
      apply Nat.succ_lt_succ
      apply Frame.length_lt_of_finished hfinished
      rintro rfl
      cases hgoes

private theorem Turn.of_read {bytes rest : Bytes} {reading : Reading} (s : Session σ)
    (h : (Frame.read ⟨bytes, []⟩).1 = reading ∧ (Frame.read ⟨bytes, []⟩).2.bytes = rest) :
    Turn r ⟨none, bytes, s⟩ ⟨(step r reading s).1, rest, (step r reading s).2⟩ := by
  obtain ⟨n, hfinished⟩ := Frame.exists_finished bytes
  rw [h.1, h.2] at hfinished
  exact .intro s hfinished

theorem exists_turn {m : Moment σ} (h : m.ending = none) : ∃ next, Turn r m next := by
  obtain ⟨ending, bytes, s⟩ := m
  obtain rfl : ending = none := h
  exact ⟨_, .of_read s ⟨rfl, rfl⟩⟩

/-- The pace of the stream does not tell in a session. -/
theorem loop_congr {a b : Source} (h : a.bytes = b.bytes) (s : Session σ) :
    (loop r a s).1 = (loop r b s).1 ∧ (loop r a s).2.1.bytes = (loop r b s).2.1.bytes ∧
      (loop r a s).2.2 = (loop r b s).2.2 := by
  fun_induction loop r a s generalizing b with
  | case1 a s ending s' hstep =>
    obtain ⟨hreading, hrest⟩ := Frame.read_congr h
    rw [loop_of_step hreading.symm, hstep]
    exact ⟨rfl, hrest, rfl⟩
  | case2 a s s' hstep ih =>
    obtain ⟨hreading, hrest⟩ := Frame.read_congr h
    rw [loop_of_step hreading.symm, hstep]
    exact ih hrest

/-- How a session ends from a moment on, what it leaves of the bytes, and the session then. -/
def Moment.completed (r : Registry σ) (m : Moment σ) : Ending × Bytes × Session σ :=
  match m.ending with
  | some ending => (ending, m.bytes, m.session)
  | none =>
    let (ending, source, s) := loop r ⟨m.bytes, []⟩ m.session
    (ending, source.bytes, s)

private theorem completed_turn {m m' : Moment σ} (h : Turn r m m') :
    m'.completed r = m.completed r := by
  cases h with
  | @intro n bytes rest reading s hfinished =>
    obtain ⟨hreading, hrest⟩ := Frame.read_of_finished hfinished []
    simp only [Moment.completed, loop_of_step hreading]
    rcases step r reading s with ⟨_ | ending, s'⟩
    · -- The source that is left has another pace than the one that the next turn begins with.
      obtain ⟨hending, hbytes, hsession⟩ :=
        loop_congr (r := r) (a := ⟨rest, []⟩) (b := (Frame.read ⟨bytes, []⟩).2) hrest.symm s'
      simp only [hending, hbytes, hsession]
    · simp only [hrest]

/-- By whatever turns a session comes to its end, it is the end of its run. -/
theorem run_of_ended {n : Nat} {bytes : Bytes} {s : Session σ} {m : Moment σ} {ending : Ending}
    (h : Steps (Turn r) n ⟨none, bytes, s.start⟩ m) (hending : m.ending = some ending)
    (pace : List Nat) :
    (run r ⟨bytes, pace⟩ s).1 = ending ∧ (run r ⟨bytes, pace⟩ s).2.1.bytes = m.bytes ∧
      (run r ⟨bytes, pace⟩ s).2.2 = m.session := by
  have hcompleted := h.map_eq (f := Moment.completed r) fun _ _ => completed_turn
  simp only [Moment.completed, hending, Prod.mk.injEq] at hcompleted
  obtain ⟨hend, hbytes, hsession⟩ := hcompleted
  obtain ⟨hend', hbytes', hsession'⟩ :=
    loop_congr (r := r) (a := ⟨bytes, pace⟩) (b := ⟨bytes, []⟩) rfl s.start
  exact ⟨hend'.trans hend.symm, hbytes'.trans hbytes.symm, hsession'.trans hsession.symm⟩

/-- Every reading is over after as many calls of the stream as there are bytes, and one more, at the
latest. If it has not found the end of the stream, it has taken a byte. So every session is over
after as many readings as there are bytes, and one more, at the latest, whatever the handlers do. -/
theorem every_run_ends (r : Registry σ) :
    (∀ (bytes : Bytes) (calls : Nat) (phase : Frame.Phase) (rest : Bytes),
      Steps Frame.Fetch calls (.headers [], bytes) (phase, rest) →
      calls ≤ bytes.length + 1 ∧
      ((∀ reading, phase ≠ .finished reading) → ∃ next, Frame.Fetch (phase, rest) next) ∧
      ∀ reading, phase = .finished reading →
        (reading ≠ .closed → rest.length < bytes.length) ∧
        ∀ pace, (Frame.read ⟨bytes, pace⟩).1 = reading ∧
          (Frame.read ⟨bytes, pace⟩).2.bytes = rest) ∧
    ∀ (bytes : Bytes) (s : Session σ) (readings : Nat) (m : Moment σ),
      Steps (Turn r) readings ⟨none, bytes, s.start⟩ m →
      readings ≤ bytes.length + 1 ∧
      (m.ending = none → ∃ next, Turn r m next) ∧
      ∀ ending, m.ending = some ending →
        ∀ pace, (run r ⟨bytes, pace⟩ s).1 = ending ∧
          (run r ⟨bytes, pace⟩ s).2.1.bytes = m.bytes ∧
          (run r ⟨bytes, pace⟩ s).2.2 = m.session := by
  constructor
  · intro bytes calls phase rest h
    have hbound := h.add_le fun _ _ => Frame.callsLeft_fetch
    refine ⟨Nat.le_trans (Nat.le_add_right _ _) hbound, fun hopen => ?_, ?_⟩
    · exact Frame.exists_fetch hopen rest
    · rintro reading rfl
      exact ⟨Frame.length_lt_of_finished h, Frame.read_of_finished h⟩
  · intro bytes s readings m h
    have hbound := h.add_le fun _ _ => readingsLeft_turn
    refine ⟨Nat.le_trans (Nat.le_add_right _ _) hbound, exists_turn, fun ending hending => ?_⟩
    exact run_of_ended h hending

end

def hollow : Frame.Block where
  blanks := [.feed]
  lines := [.contentLength [0x30, 0x30] (by decide +kernel) (by decide)]
  close := .feed
  lines_ne_nil := nofun
  digits := "00"
  body := []
  declares := ⟨by decide, by decide, by decide⟩
  digits_le := by decide
  denotes := by decide
  body_le := by decide

theorem every_run_ends_hollow :
    let _ : Stack := .withSpare 0
    let r : Registry Unit := {}
    let s : Session Unit := { world := () }
    ∃ m, Steps (Turn r) 2 ⟨none, hollow.bytes, s.start⟩ m ∧ 2 ≤ hollow.bytes.length + 1 ∧
      ∀ pace, (run r ⟨hollow.bytes, pace⟩ s).1 = .exit 0 := by
  intro _ r s
  have hgoes : (step r (Frame.reading []) s.start).1 = none := by cbv
  have hread := hollow.read_bytes (s := ⟨hollow.bytes, []⟩) (List.append_nil _).symm
  have hend := Frame.read_blankLines [] (s := ⟨[], []⟩) rfl
  have hfirst : Turn r ⟨none, hollow.bytes, s.start⟩ ⟨(step r (Frame.reading []) s.start).1, [],
      (step r (Frame.reading []) s.start).2⟩ := .of_read s.start hread
  rw [hgoes] at hfirst
  have hsteps : Steps (Turn r) 2 ⟨none, hollow.bytes, s.start⟩ _ :=
    .head hfirst (.head (.of_read _ hend) (.refl _))
  obtain ⟨hbound, -, hrun⟩ := (every_run_ends r).2 hollow.bytes s 2 _ hsteps
  exact ⟨_, hsteps, hbound, fun pace => (hrun _ rfl pace).1⟩

end Session

end RubyLanguageServer
