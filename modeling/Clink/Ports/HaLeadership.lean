import Clink.Ports.SqlText
import Clink.Ports.TriggeredRecord

/-!
# Leadership epochs

The embedding of the file-based leader election of a coordinator
(`FileHaCoordinator`, `src/cluster/ha_coordinator.cpp`).  The leader holds a
lock on a file of the HA directory and publishes itself in
`active-leader.json`.  A coordinator that gets the lock reads the epoch its
predecessor published, goes above it, publishes itself through the fenced write
(`fenced_metadata_cas_write`) and tells its owner.  Every one of these is a step
of its own, and the process may die between any two of them.

The result of the fenced write is not looked at: a leader whose record did not
land leads at an epoch that is nowhere on disk.
-/

namespace Clink.Ports.HaLeadership

open Clink.Verified
open Clink.Ports.TriggeredRecord (metadataWriteAllowed)
open Clink.Ports.SqlValue (escapeChar)

/-- What a successor reads of a `LeaderEndpoint`. -/
structure LeaderEndpoint where
  host : List Char
  port : Nat
  epoch : Nat

/-- What `current_leader_endpoint` makes of a record. -/
def currentLeaderEndpoint (record : Option LeaderEndpoint) : Option LeaderEndpoint :=
  record.filter fun ep => !(ep.host.isEmpty || ep.port == 0)

/-! ## The text of the record -/

/-- `"key":`. -/
def needleOf (key : List Char) : List Char := '"' :: (key ++ ['"', ':'])

/-- What follows the first occurrence of a needle. -/
def findAfter (needle : List Char) : List Char → Option (List Char)
  | [] => if needle.isEmpty then some [] else none
  | c :: rest =>
      if needle.isPrefixOf (c :: rest) then some ((c :: rest).drop needle.length)
      else findAfter needle rest

/-- `extract_string_`. -/
def extractString (body key : List Char) : List Char :=
  match findAfter (needleOf key ++ ['"']) body with
  | none => []
  | some rest => if '"' ∈ rest then rest.takeWhile (· != '"') else []

/-- `std::isspace`. -/
def isSpace (c : Char) : Bool := c.isWhitespace || c = '\x0b' || c = '\x0c'

/-- `std::stoull`: blanks, a sign, and the digits that follow; none where it
throws. -/
def stoull (text : List Char) : Option Nat :=
  match text.dropWhile isSpace with
  | '-' :: rest =>
      (parseDecimal (2 ^ 64) (rest.takeWhile Char.isDigit)).map fun n => (2 ^ 64 - n) % 2 ^ 64
  | '+' :: rest => parseDecimal (2 ^ 64) (rest.takeWhile Char.isDigit)
  | rest => parseDecimal (2 ^ 64) (rest.takeWhile Char.isDigit)

/-- `extract_uint_`. -/
def extractUint (body key : List Char) : Nat :=
  match findAfter (needleOf key) body with
  | none => 0
  | some rest => if rest = [] ∨ rest.head? = some '"' then 0 else (stoull rest).getD 0

def hostKey : List Char := "host".toList

def portKey : List Char := "port".toList

def epochKey : List Char := "epoch".toList

/-- `current_leader_endpoint` of a body. -/
def parseLeader (body : List Char) : Option LeaderEndpoint :=
  let host := extractString body hostKey
  let port := extractUint body portKey % 2 ^ 16
  if host.isEmpty || port == 0 then none
  else some { host, port, epoch := extractUint body epochKey }

/-- The body `refresh_active_leader_` writes. -/
def leaderBody (ep : LeaderEndpoint) (updatedUnixMs httpPort : Nat) : List Char :=
  '\x7b' :: (needleOf hostKey ++ '"' :: (ep.host.flatMap escapeChar ++ '"' :: ',' ::
    (needleOf portKey ++ (decimal ep.port ++ ',' ::
      (needleOf epochKey ++ (decimal ep.epoch ++ ',' ::
        (needleOf "updated_unix_ms".toList ++ (decimal updatedUnixMs ++ ',' ::
          (needleOf "http_port".toList ++ (decimal httpPort ++ ['\x7d']))))))))))

theorem findAfter_found (needle rest : List Char) (h : needle ≠ []) :
    findAfter needle (needle ++ rest) = some rest := by
  cases needle with
  | nil => exact absurd rfl h
  | cons c cs =>
      rw [List.cons_append, findAfter, ← List.cons_append, List.drop_left, if_pos]
      exact List.isPrefixOf_iff_prefix.mpr (List.prefix_append _ _)

variable {c : Char} {rest : List Char}

theorem findAfter_skip {needle : List Char} (h : ¬ needle <+: c :: rest) :
    findAfter needle (c :: rest) = findAfter needle rest := by
  rw [findAfter, if_neg (by rwa [List.isPrefixOf_iff_prefix])]

variable {key : List Char}

/-- No occurrence of a key starts at a character that is not a quote. -/
theorem findAfter_plain (text rest : List Char) (h : '"' ∉ text) :
    findAfter (needleOf key) (text ++ rest) = findAfter (needleOf key) rest := by
  induction text with
  | nil => rfl
  | cons c text ih =>
      rw [List.mem_cons, not_or] at h
      rw [List.cons_append, findAfter_skip, ih h.2]
      intro hpre
      exact h.1 (List.cons_prefix_cons.mp hpre).1

/-- Every quote stands behind a backslash. -/
def Guarded : Char → List Char → Prop
  | _, [] => True
  | before, c :: rest => (c = '"' → before = '\\') ∧ Guarded c rest

variable {before : Char} {text : List Char}

private theorem guarded_append (h : '"' ∉ text) (hrest : ∀ c, Guarded c rest) :
    Guarded before (text ++ rest) := by
  induction text generalizing before with
  | nil => exact hrest before
  | cons c text ih =>
      rw [List.mem_cons, not_or] at h
      exact ⟨fun hc => absurd hc.symm h.1, ih h.2⟩

theorem escapeChar_no_quote (hc : c ≠ '"') : '"' ∉ escapeChar c := by
  by_cases hmem : c ∈ SqlValue.escaped
  · have hall : (SqlValue.escaped.all fun c => c == '"' || !(escapeChar c).elem '"') = true := by
      decide
    simpa [hc] using List.all_eq_true.mp hall c hmem
  · rw [SqlValue.escapeChar_of_not_mem hmem]
    simpa using hc.symm

private theorem guarded_escaped (host : List Char) (before : Char) :
    Guarded before (host.flatMap escapeChar) := by
  induction host generalizing before with
  | nil => trivial
  | cons c host ih =>
      rw [List.flatMap_cons]
      by_cases hc : c = '"'
      · rw [hc]
        exact ⟨by simp, fun _ => rfl, ih _⟩
      · exact guarded_append (escapeChar_no_quote hc) ih

private theorem backslash_of_guarded (h : Guarded before (text ++ '"' :: rest)) (hne : text ≠ []) :
    '\\' ∈ text := by
  induction text generalizing before with
  | nil => exact absurd rfl hne
  | cons c text ih =>
      cases text with
      | nil =>
          have hc : c = '\\' := h.2.1 rfl
          rw [hc]
          exact List.mem_cons_self
      | cons d text => exact List.mem_cons_of_mem _ (ih h.2 (by simp))

/-- A key as the record has them: no quote, backslash, comma or colon. -/
def Clean (key : List Char) : Prop :=
  key ≠ [] ∧ ∀ c ∈ key, c ≠ '"' ∧ c ≠ '\\' ∧ c ≠ ',' ∧ c ≠ ':'

theorem eq_of_first_quote {a b : List Char} {x y : List Char} (ha : '"' ∉ a) (hb : '"' ∉ b)
    (h : a ++ '"' :: x = b ++ '"' :: y) : a = b ∧ x = y := by
  have hcut := cutAt_append ha x
  rw [h, cutAt_append hb y] at hcut
  obtain ⟨hab, hxy⟩ := Prod.mk.inj (Option.some.inj hcut)
  exact ⟨hab.symm, hxy.symm⟩

theorem Clean.no_quote (h : Clean key) : '"' ∉ key :=
  fun hmem => (h.2 _ hmem).1 rfl

/-- An occurrence of a key does not start at a quote before another character. -/
theorem not_prefix_of_next (h : Clean key) (hc : c ∉ key) :
    ¬ needleOf key <+: '"' :: c :: rest := by
  intro hpre
  obtain ⟨k, ks, rfl⟩ := List.exists_cons_of_ne_nil h.1
  have hk := (List.cons_prefix_cons.mp (List.cons_prefix_cons.mp hpre).2).1
  exact hc (hk ▸ List.mem_cons_self)

theorem findAfter_otherKey {other : List Char} (h : Clean key) (hother : '"' ∉ other)
    (hne : key ≠ other) (rest : List Char) :
    findAfter (needleOf key) (needleOf other ++ rest) = findAfter (needleOf key) rest := by
  have hbody : needleOf other ++ rest = '"' :: (other ++ '"' :: ':' :: rest) := by
    simp [needleOf]
  rw [hbody, findAfter_skip, findAfter_plain _ _ hother, findAfter_skip,
    ← List.singleton_append, findAfter_plain _ _ (by decide)]
  · exact not_prefix_of_next h fun hmem => (h.2 _ hmem).2.2.2 rfl
  · rintro ⟨t, ht⟩
    have htail : key ++ '"' :: (':' :: t) = other ++ '"' :: (':' :: rest) := by
      have := (List.cons.inj ht).2
      simpa using this
    exact hne (eq_of_first_quote h.no_quote hother htail).1

/-- No key occurs inside an escaped string, nor at the quote that ends it. -/
theorem findAfter_escaped (h : Clean key) (hguard : Guarded before text) (rest : List Char) :
    findAfter (needleOf key) (text ++ '"' :: ',' :: rest) = findAfter (needleOf key) rest := by
  induction text generalizing before with
  | nil =>
      rw [List.nil_append, findAfter_skip, ← List.singleton_append,
        findAfter_plain _ _ (by decide)]
      exact not_prefix_of_next h fun hmem => (h.2 _ hmem).2.2.1 rfl
  | cons c text ih =>
      rw [List.cons_append, findAfter_skip, ih hguard.2]
      rintro ⟨t, ht⟩
      have htail : key ++ '"' :: (':' :: t) = text ++ '"' :: (',' :: rest) := by
        have := (List.cons.inj ht).2
        simpa using this
      by_cases hquote : '"' ∈ text
      · -- the next quote inside the string stands behind a backslash, a key has none
        obtain ⟨x, y, rfl, hx⟩ := List.eq_append_cons_of_mem hquote
        rw [List.append_assoc, List.cons_append] at htail
        obtain ⟨rfl, -⟩ := eq_of_first_quote h.no_quote hx htail
        exact (h.2 _ (backslash_of_guarded hguard.2 h.1)).2.1 rfl
      · obtain ⟨-, hrest⟩ := eq_of_first_quote h.no_quote hquote htail
        exact absurd (List.cons.inj hrest).1 (by decide)

/-- The digits of a number are read up to the first character that is none. -/
theorem takeWhile_decimal (n : Nat) (hrest : ∀ c ∈ rest.head?, c.isDigit = false) :
    (decimal n ++ rest).takeWhile Char.isDigit = decimal n := by
  have hall : ∀ c ∈ decimal n, c.isDigit = true := fun c hc => isDigit_of_mem_decimal hc
  rw [List.takeWhile_append_of_pos hall]
  cases rest with
  | nil => simp
  | cons c rest =>
      rw [List.takeWhile_cons_of_neg (by rw [hrest c rfl]; decide), List.append_nil]

/-- `stoull` reads a number back, whatever follows it that is no digit. -/
theorem stoull_decimal {n : Nat} (h : n < 2 ^ 64) (hrest : ∀ c ∈ rest.head?, c.isDigit = false) :
    stoull (decimal n ++ rest) = some n := by
  have hkept := takeWhile_decimal n hrest
  have hparsed : parseDecimal (2 ^ 64) ((decimal n ++ rest).takeWhile Char.isDigit) =
      some n := by
    rw [hkept, parseDecimal_decimal h]
  obtain ⟨d, ds, hd⟩ := List.exists_cons_of_ne_nil (decimal_ne_nil n)
  have hdigit : d.isDigit = true := isDigit_of_mem_decimal (hd ▸ List.mem_cons_self)
  have hblank : isSpace d = false := by
    rw [← Bool.not_eq_true]
    intro hspace
    simp only [isSpace, Char.isWhitespace, Bool.or_eq_true, decide_eq_true_eq] at hspace
    rcases hspace with ((((h | h) | h) | h) | h) | h <;> rw [h] at hdigit <;> exact nomatch hdigit
  have hdrop : (decimal n ++ rest).dropWhile isSpace = decimal n ++ rest := by
    rw [hd, List.cons_append, List.dropWhile_cons_of_neg (by simp [hblank])]
  unfold stoull
  rw [hdrop]
  rw [hd, List.cons_append] at hparsed ⊢
  split
  next heq =>
    rw [(List.cons.inj heq).1] at hdigit
    exact absurd hdigit (by decide)
  next heq =>
    rw [(List.cons.inj heq).1] at hdigit
    exact absurd hdigit (by decide)
  next => exact hparsed

theorem uint_found {n : Nat} (h : n < 2 ^ 64) {body : List Char}
    (hbody : findAfter (needleOf key) body = some (decimal n ++ ',' :: rest)) :
    extractUint body key = n := by
  obtain ⟨d, ds, hd⟩ := List.exists_cons_of_ne_nil (decimal_ne_nil n)
  have hdigit : d.isDigit = true := isDigit_of_mem_decimal (hd ▸ List.mem_cons_self)
  have hstart : ¬
      (decimal n ++ ',' :: rest = [] ∨ (decimal n ++ ',' :: rest).head? = some '"') := by
    rw [hd]
    rintro (hnil | hhead)
    · simp at hnil
    · rw [List.cons_append, List.head?_cons] at hhead
      rw [Option.some.inj hhead] at hdigit
      exact absurd hdigit (by decide)
  rw [extractUint, hbody]
  dsimp only
  rw [if_neg hstart, stoull_decimal h (by simp)]
  rfl

private theorem clean_portKey : Clean portKey := by
  simp [Clean, portKey]

theorem clean_epochKey : Clean epochKey := by
  simp [Clean, epochKey]

variable (ep : LeaderEndpoint) (updatedUnixMs httpPort : Nat)

theorem findAfter_host (h : Clean key) (hne : key ≠ hostKey) (rest : List Char) :
    findAfter (needleOf key)
        ('\x7b' ::
          (needleOf hostKey ++ '"' :: (ep.host.flatMap escapeChar ++ '"' :: ',' :: rest))) =
      findAfter (needleOf key) rest := by
  have hguard : Guarded '\\' ('"' :: ep.host.flatMap escapeChar) :=
    ⟨fun _ => rfl, guarded_escaped _ _⟩
  rw [← List.singleton_append, findAfter_plain _ _ (by decide),
    findAfter_otherKey h (by decide) hne, ← List.cons_append, findAfter_escaped h hguard]

private theorem extractUint_port (h : ep.port < 2 ^ 64) :
    extractUint (leaderBody ep updatedUnixMs httpPort) portKey = ep.port := by
  apply uint_found h
  rw [leaderBody, findAfter_host ep clean_portKey (by decide),
    findAfter_found _ _ (by simp [needleOf])]

private theorem extractUint_epoch (h : ep.epoch < 2 ^ 64) :
    extractUint (leaderBody ep updatedUnixMs httpPort) epochKey = ep.epoch := by
  have hcomma : ∀ rest, findAfter (needleOf epochKey) (',' :: rest) =
      findAfter (needleOf epochKey) rest := fun rest => findAfter_plain [','] rest (by decide)
  apply uint_found h
  rw [leaderBody, findAfter_host ep clean_epochKey (by decide),
    findAfter_otherKey clean_epochKey (by decide) (by decide),
    findAfter_plain _ _ (not_mem_decimal (by decide)), hcomma,
    findAfter_found _ _ (by simp [needleOf])]

theorem extractString_host :
    (extractString (leaderBody ep updatedUnixMs httpPort) hostKey).isEmpty = ep.host.isEmpty := by
  have hfound : ∀ rest, findAfter (needleOf hostKey ++ ['"'])
      ('\x7b' :: (needleOf hostKey ++ '"' :: rest)) = some rest := by
    intro rest
    rw [findAfter_skip]
    · have hassoc : needleOf hostKey ++ '"' :: rest = (needleOf hostKey ++ ['"']) ++ rest := by simp
      rw [hassoc]
      exact findAfter_found _ _ (by simp [needleOf])
    · intro hpre
      exact absurd (List.cons_prefix_cons.mp hpre).1 (by decide)
  rw [extractString, leaderBody, hfound]
  dsimp only
  rw [if_pos (by simp)]
  cases hhost : ep.host with
  | nil => rfl
  | cons c host =>
      by_cases hc : c = '"'
      · rw [hc]
        rfl
      · obtain ⟨d, ds, hd⟩ := List.exists_cons_of_ne_nil (SqlValue.escapeChar_ne_nil c)
        have hquote : d ≠ '"' := by
          intro heq
          exact escapeChar_no_quote hc (by rw [hd, heq]; exact List.mem_cons_self)
        rw [List.flatMap_cons, hd, List.cons_append, List.cons_append,
          List.takeWhile_cons_of_pos (by simpa using hquote)]
        rfl

/-- A successor reads the epoch the leader published, and a record without a
host or a port as none. -/
theorem parseLeader_body (hport : ep.port < 2 ^ 16) (hepoch : ep.epoch < 2 ^ 63) :
    (parseLeader (leaderBody ep updatedUnixMs httpPort)).map LeaderEndpoint.epoch =
      (currentLeaderEndpoint (some ep)).map LeaderEndpoint.epoch := by
  have hp := extractUint_port ep updatedUnixMs httpPort (hport.trans (by decide))
  have he := extractUint_epoch ep updatedUnixMs httpPort (hepoch.trans (by decide))
  have hh := extractString_host ep updatedUnixMs httpPort
  unfold parseLeader currentLeaderEndpoint
  dsimp only
  rw [hp, he, hh, Nat.mod_eq_of_lt hport]
  cases hempty : (ep.host.isEmpty || ep.port == 0) with
  | true => simp [Option.filter, hempty]
  | false => simp [Option.filter, hempty]

theorem parseLeader_body_quote :
    (parseLeader (leaderBody ⟨['"'], 1, 2⟩ 0 0)).map LeaderEndpoint.epoch = some 2 :=
  parseLeader_body ⟨['"'], 1, 2⟩ 0 0 (by decide) (by decide)

/-! ## Acquiring leadership -/

/-- Where a process stands in `try_acquire_`. -/
inductive Stage
  | idle
  /-- It has the lock. -/
  | locked
  /-- It has read the record and fixed its epoch. -/
  | decided
  /-- Its record write has returned. -/
  | recorded
  deriving DecidableEq

/-- A coordinator process. -/
structure Process where
  /-- `advertise_`. -/
  host : List Char
  port : Nat
  epoch : Nat := 0
  isLeader : Bool := false
  stage : Stage := .idle

/-- The endpoint can be read back: `current_leader_endpoint` drops a record
without a host or a port. -/
def Process.hasEndpoint (p : Process) : Bool := !p.host.isEmpty && p.port != 0

/-- How a fenced write that the fence allows ends: it lands, or it fails, its
bytes in place or not. -/
inductive WriteFate
  | landed
  | failed (inPlace : Bool)
  deriving DecidableEq

def WriteFate.lands : WriteFate → Bool
  | .landed => true
  | .failed inPlace => inPlace

structure System where
  processes : Nat → Process
  lockHolder : Option Nat := none
  /-- `active-leader.json`. -/
  record : Option LeaderEndpoint := none
  /-- The calls of the become-leader callback: the process and the epoch. -/
  announced : List (Nat × Nat) := []

/-- The epoch the fence reads off the record. -/
def recordedEpoch (record : Option LeaderEndpoint) : Nat :=
  (record.map LeaderEndpoint.epoch).getD 0

namespace System

def update (s : System) (i : Nat) (p : Process) : System :=
  { s with processes := Function.update s.processes i p }

/-- `refresh_active_leader_`. -/
def refreshActiveLeader (s : System) (i : Nat) (fate : WriteFate) : System :=
  let p := s.processes i
  if metadataWriteAllowed p.epoch (recordedEpoch s.record) && fate.lands then
    { s with record := some { host := p.host, port := p.port, epoch := p.epoch } }
  else s

/-- The lock is granted to a process that polls for it. -/
def lock (s : System) (i : Nat) : System :=
  let p := s.processes i
  if s.lockHolder = none ∧ p.isLeader = false ∧ p.stage = .idle then
    { s.update i { p with stage := .locked } with lockHolder := some i }
  else s

/-- The new leader goes above the epoch on record and above its own. -/
def takeEpoch (s : System) (i : Nat) : System :=
  let p := s.processes i
  if p.stage = .locked then
    let prior := max p.epoch (((currentLeaderEndpoint s.record).map LeaderEndpoint.epoch).getD 0)
    s.update i { p with epoch := prior + 1, isLeader := true, stage := .decided }
  else s

/-- It publishes itself. -/
def publish (s : System) (i : Nat) (fate : WriteFate) : System :=
  if (s.processes i).stage = .decided then
    (s.refreshActiveLeader i fate).update i { s.processes i with stage := .recorded }
  else s

/-- `on_become_leader_`. -/
def announce (s : System) (i : Nat) : System :=
  let p := s.processes i
  if p.stage = .recorded then
    { s.update i { p with stage := .idle } with announced := s.announced ++ [(i, p.epoch)] }
  else s

/-- The poll of a leader. -/
def refresh (s : System) (i : Nat) (fate : WriteFate) : System :=
  let p := s.processes i
  if p.isLeader = true ∧ p.stage = .idle then s.refreshActiveLeader i fate else s

def releaseLock (s : System) (i : Nat) : System :=
  if s.lockHolder = some i then { s with lockHolder := none } else s

/-- `stop`, which waits for the poll thread. -/
def stop (s : System) (i : Nat) : System :=
  let p := s.processes i
  if p.stage = .idle then (s.update i { p with isLeader := false }).releaseLock i else s

/-- The process dies, and another is started in its place. -/
def crash (s : System) (i : Nat) (host : List Char) (port : Nat) : System :=
  (s.update i { host, port }).releaseLock i

end System

inductive Event
  | lock (i : Nat)
  | takeEpoch (i : Nat)
  | publish (i : Nat) (fate : WriteFate)
  | announce (i : Nat)
  | refresh (i : Nat) (fate : WriteFate)
  | stop (i : Nat)
  | crash (i : Nat) (host : List Char) (port : Nat)
  /-- The lock is lost, its holder being alive. -/
  | lose (i : Nat)

def step (s : System) : Event → System
  | .lock i => s.lock i
  | .takeEpoch i => s.takeEpoch i
  | .publish i fate => s.publish i fate
  | .announce i => s.announce i
  | .refresh i fate => s.refresh i fate
  | .stop i => s.stop i
  | .crash i host port => s.crash i host port
  | .lose i => s.releaseLock i

/-- A fresh HA directory and processes that have not led. -/
def start (endpoint : Nat → List Char × Nat) : System :=
  { processes := fun i => { host := (endpoint i).1, port := (endpoint i).2 } }

def run (endpoint : Nat → List Char × Nat) (es : List Event) : System :=
  es.foldl step (start endpoint)

/-- The leaderships have different epochs, later ones greater, and the epoch on
record never decreases. -/
def EpochsNeverRepeat (endpoint : Nat → List Char × Nat) (es : List Event) : Prop :=
  (run endpoint es).announced.Pairwise (fun a b => a.2 < b.2) ∧
    ∀ pre post, es = pre ++ post →
      recordedEpoch (run endpoint pre).record ≤ recordedEpoch (run endpoint es).record

/-- A leader whose record was not written is followed by another at its epoch. -/
theorem epoch_repeats : ¬ EpochsNeverRepeat (fun _ => ("jm".toList, 6123))
    [.lock 0, .takeEpoch 0, .publish 0 (.failed false), .announce 0,
      .crash 0 "jm".toList 6123, .lock 1, .takeEpoch 1, .publish 1 .landed, .announce 1] := by
  intro h
  have hannounced : (run (fun _ => ("jm".toList, 6123))
      [.lock 0, .takeEpoch 0, .publish 0 (.failed false), .announce 0,
        .crash 0 "jm".toList 6123, .lock 1, .takeEpoch 1, .publish 1 .landed,
        .announce 1]).announced = [(0, 1), (1, 1)] := by
    decide
  have hpair := h.1
  rw [hannounced] at hpair
  exact absurd hpair (by decide)

/-! ## The record never decreases -/

theorem recordedEpoch_refresh (s : System) (i : Nat) (fate : WriteFate) :
    recordedEpoch s.record ≤ recordedEpoch (s.refreshActiveLeader i fate).record := by
  unfold System.refreshActiveLeader
  dsimp only
  split
  next h =>
    rw [Bool.and_eq_true] at h
    exact of_decide_eq_true h.1
  next => exact le_rfl

theorem recordedEpoch_step (s : System) (e : Event) :
    recordedEpoch s.record ≤ recordedEpoch (step s e).record := by
  cases e with
  | lock i =>
      simp only [step, System.lock]
      split
      · exact le_rfl
      · exact le_rfl
  | takeEpoch i =>
      simp only [step, System.takeEpoch]
      split
      · exact le_rfl
      · exact le_rfl
  | publish i fate =>
      simp only [step, System.publish]
      split
      · exact recordedEpoch_refresh s i fate
      · exact le_rfl
  | announce i =>
      simp only [step, System.announce]
      split
      · exact le_rfl
      · exact le_rfl
  | refresh i fate =>
      simp only [step, System.refresh]
      split
      · exact recordedEpoch_refresh s i fate
      · exact le_rfl
  | stop i =>
      simp only [step, System.stop, System.releaseLock]
      split
      · split
        · exact le_rfl
        · exact le_rfl
      · exact le_rfl
  | crash i host port =>
      simp only [step, System.crash, System.releaseLock]
      split
      · exact le_rfl
      · exact le_rfl
  | lose i =>
      simp only [step, System.releaseLock]
      split
      · exact le_rfl
      · exact le_rfl

theorem recordedEpoch_run (s : System) (es : List Event) :
    recordedEpoch s.record ≤ recordedEpoch (es.foldl step s).record := by
  induction es generalizing s with
  | nil => exact le_rfl
  | cons e es ih => exact (recordedEpoch_step s e).trans (ih (step s e))

/-! ## When epochs never repeat -/

/-- The step leaves the record able to carry the epoch on: a new leader
advertises a host and a port, what it publishes lands, and the lock is not lost
between its acquisition and its announcement. -/
def recordsItself (s : System) : Event → Prop
  | .takeEpoch i => (s.processes i).hasEndpoint = true
  | .publish _ fate => fate.lands = true
  | .lose i => (s.processes i).stage = .idle
  | _ => True

instance (s : System) : ∀ e, Decidable (recordsItself s e)
  | .takeEpoch i => inferInstanceAs (Decidable ((s.processes i).hasEndpoint = true))
  | .publish _ fate => inferInstanceAs (Decidable (fate.lands = true))
  | .lose i => inferInstanceAs (Decidable ((s.processes i).stage = .idle))
  | .lock _ | .announce _ | .refresh _ _ | .stop _ | .crash _ _ _ => .isTrue trivial

/-- A process against the record, the announcements and the lock. -/
structure Stands (s : System) (i : Nat) (p : Process) : Prop where
  held : p.stage ≠ .idle → s.lockHolder = some i
  below : p.stage ≠ .decided → p.epoch ≤ recordedEpoch s.record
  above : p.stage = .decided → recordedEpoch s.record < p.epoch
  fresh : p.stage = .recorded → ∀ a ∈ s.announced, a.2 < p.epoch
  leads : p.stage = .decided → p.isLeader = true
  endpoint : p.isLeader = true → p.hasEndpoint = true

/-- A process outside the acquisition stands at or below the record. -/
theorem Stands.of_idle {s : System} {i : Nat} {p : Process} (hstage : p.stage = .idle)
    (hepoch : p.epoch ≤ recordedEpoch s.record)
    (hendpoint : p.isLeader = true → p.hasEndpoint = true) : Stands s i p := by
  constructor
  case held => exact fun hne => absurd hstage hne
  case below => exact fun _ => hepoch
  case endpoint => exact hendpoint
  all_goals
    intro hother
    rw [hstage] at hother
    exact absurd hother (by decide)

/-- The record carries the epochs announced, and one process at a time goes
above it. -/
structure Carries (s : System) : Prop where
  announced : s.announced.Pairwise fun a b => a.2 < b.2
  recorded : ∀ a ∈ s.announced, a.2 ≤ recordedEpoch s.record
  readable : ∀ ep, s.record = some ep → ep.host ≠ [] ∧ ep.port ≠ 0
  stands : ∀ i, Stands s i (s.processes i)

namespace Carries

variable {s : System} {i : Nat}

theorem start (endpoint : Nat → List Char × Nat) : Carries (start endpoint) := by
  refine ⟨.nil, by simp [HaLeadership.start], by simp [HaLeadership.start], ?_⟩
  exact fun i => .of_idle rfl (Nat.zero_le _)
    fun hleader => absurd hleader (by simp [HaLeadership.start])

section

variable (h : Carries s)
include h

/-- One process at a time acquires leadership. -/
theorem others_idle (hi : (s.processes i).stage ≠ .idle) {j : Nat} (hj : j ≠ i) :
    (s.processes j).stage = .idle := by
  by_contra hne
  have hholder := (h.stands j).held hne
  rw [(h.stands i).held hi] at hholder
  exact hj (Option.some.inj hholder).symm

theorem read_eq :
    ((currentLeaderEndpoint s.record).map LeaderEndpoint.epoch).getD 0 =
      recordedEpoch s.record := by
  cases hrec : s.record with
  | none => rfl
  | some ep =>
      obtain ⟨hhost, hport⟩ := h.readable ep hrec
      have hkept : currentLeaderEndpoint (some ep) = some ep := by
        simp [currentLeaderEndpoint, Option.filter, hhost, hport]
      rw [hkept]
      rfl

omit h in
/-- A step changes one process, and the rest stand where they stood. -/
theorem of_update {s' : System} {p : Process}
    (hprocesses : s'.processes = Function.update s.processes i p)
    (hannounced : s'.announced.Pairwise fun a b => a.2 < b.2)
    (hrecorded : ∀ a ∈ s'.announced, a.2 ≤ recordedEpoch s'.record)
    (hreadable : ∀ ep, s'.record = some ep → ep.host ≠ [] ∧ ep.port ≠ 0)
    (hself : Stands s' i p) (hothers : ∀ j, j ≠ i → Stands s' j (s.processes j)) :
    Carries s' := by
  refine ⟨hannounced, hrecorded, hreadable, ?_⟩
  intro j
  rw [hprocesses]
  by_cases hj : j = i
  · rw [hj, Function.update_self]
    exact hself
  · rw [Function.update_of_ne hj]
    exact hothers j hj

theorem lock (i : Nat) : Carries (s.lock i) := by
  unfold System.lock
  dsimp only
  split
  next hfree =>
    obtain ⟨hholder, hleader, hidle⟩ := hfree
    have hepoch := (h.stands i).below (by rw [hidle]; decide)
    refine of_update rfl h.announced h.recorded h.readable ?_ ?_
    · constructor
      case held => exact fun _ => rfl
      case below => exact fun _ => hepoch
      case endpoint => exact (h.stands i).endpoint
      all_goals
        intro hother
        exact absurd hother (by simp)
    · intro j _
      -- nobody holds the lock, so nobody is acquiring
      have hjidle : (s.processes j).stage = .idle := by
        by_contra hne
        have := (h.stands j).held hne
        rw [hholder] at this
        exact absurd this (by simp)
      exact .of_idle hjidle ((h.stands j).below (by rw [hjidle]; decide)) (h.stands j).endpoint
  next => exact h

theorem takeEpoch (hend : (s.processes i).hasEndpoint = true) : Carries (s.takeEpoch i) := by
  unfold System.takeEpoch
  dsimp only
  split
  next hlocked =>
    have hholder := (h.stands i).held (by rw [hlocked]; decide)
    have hepoch := (h.stands i).below (by rw [hlocked]; decide)
    rw [h.read_eq, max_eq_right hepoch]
    refine of_update rfl h.announced h.recorded h.readable ?_ ?_
    · constructor
      case held => exact fun _ => hholder
      case below => exact fun hne => absurd rfl hne
      case above => exact fun _ => Nat.lt_succ_self _
      case fresh => exact fun hother => absurd hother (by simp)
      case leads => exact fun _ => rfl
      case endpoint => exact fun _ => hend
    · exact fun j _ => ⟨(h.stands j).held, (h.stands j).below, (h.stands j).above,
        (h.stands j).fresh, (h.stands j).leads, (h.stands j).endpoint⟩
  next => exact h

theorem publish {fate : WriteFate} (hlands : fate.lands = true) : Carries (s.publish i fate) := by
  unfold System.publish
  split
  next hdecided =>
    have hbusy : (s.processes i).stage ≠ .idle := by
      rw [hdecided]
      decide
    have habove := (h.stands i).above hdecided
    have hleader := (h.stands i).leads hdecided
    have hend := (h.stands i).endpoint hleader
    have hwrites : (metadataWriteAllowed (s.processes i).epoch (recordedEpoch s.record) &&
        fate.lands) = true := by
      rw [hlands, Bool.and_true]
      exact decide_eq_true habove.le
    unfold System.refreshActiveLeader
    dsimp only
    rw [if_pos hwrites]
    refine of_update rfl h.announced ?_ ?_ ?_ ?_
    · exact fun a ha => (h.recorded a ha).trans habove.le
    · intro ep hep
      obtain rfl := Option.some.inj hep
      simpa [Process.hasEndpoint] using hend
    · constructor
      case held => exact fun _ => (h.stands i).held hbusy
      case below => exact fun _ => le_rfl
      case above => exact fun hother => absurd hother (by simp)
      case fresh => exact fun _ a ha => lt_of_le_of_lt (h.recorded a ha) habove
      case leads => exact fun _ => hleader
      case endpoint => exact fun _ => hend
    · intro j hj
      have hjidle := h.others_idle hbusy hj
      have hjepoch := (h.stands j).below (by rw [hjidle]; decide)
      exact .of_idle hjidle (hjepoch.trans habove.le) (h.stands j).endpoint
  next => exact h

theorem announce (i : Nat) : Carries (s.announce i) := by
  unfold System.announce
  dsimp only
  split
  next hrecorded =>
    have hbusy : (s.processes i).stage ≠ .idle := by
      rw [hrecorded]
      decide
    have hepoch := (h.stands i).below (by rw [hrecorded]; decide)
    refine of_update rfl ?_ ?_ h.readable ?_ ?_
    · refine List.pairwise_append.mpr ⟨h.announced, by simp, ?_⟩
      intro a ha b hb
      rw [List.mem_singleton.mp hb]
      exact (h.stands i).fresh hrecorded a ha
    · intro a ha
      rcases List.mem_append.mp ha with ha | ha
      · exact h.recorded a ha
      · rw [List.mem_singleton.mp ha]
        exact hepoch
    · exact .of_idle rfl hepoch (h.stands i).endpoint
    · intro j hj
      have hjidle := h.others_idle hbusy hj
      exact .of_idle hjidle ((h.stands j).below (by rw [hjidle]; decide)) (h.stands j).endpoint
  next => exact h

/-- A leader that refreshes its record leaves the epoch on it as it is. -/
theorem refresh (i : Nat) (fate : WriteFate) : Carries (s.refresh i fate) := by
  unfold System.refresh
  dsimp only
  split
  next hleads =>
    unfold System.refreshActiveLeader
    dsimp only
    split
    next hwrites =>
      rw [Bool.and_eq_true] at hwrites
      have hge : recordedEpoch s.record ≤ (s.processes i).epoch := of_decide_eq_true hwrites.1
      have hle := (h.stands i).below (by rw [hleads.2]; decide)
      have hsame : (s.processes i).epoch = recordedEpoch s.record := le_antisymm hle hge
      refine ⟨h.announced, ?_, ?_, ?_⟩
      · exact fun a ha => (h.recorded a ha).trans hge
      · intro ep hep
        obtain rfl := Option.some.inj hep
        simpa [Process.hasEndpoint] using (h.stands i).endpoint hleads.1
      · intro j
        refine ⟨(h.stands j).held, fun hne => ?_, fun hdecided => ?_, (h.stands j).fresh,
          (h.stands j).leads, (h.stands j).endpoint⟩
        · exact ((h.stands j).below hne).trans hge
        · exact lt_of_eq_of_lt hsame ((h.stands j).above hdecided)
    next => exact h
  next => exact h

/-- A process that is not acquiring lets the lock go. -/
theorem releaseLock (hidle : (s.processes i).stage = .idle) : Carries (s.releaseLock i) := by
  unfold System.releaseLock
  split
  next hholder =>
    refine ⟨h.announced, h.recorded, h.readable, ?_⟩
    intro j
    have hjidle : (s.processes j).stage = .idle := by
      by_contra hne
      have hj := (h.stands j).held hne
      rw [hholder] at hj
      rw [← Option.some.inj hj] at hne
      exact hne hidle
    exact .of_idle hjidle ((h.stands j).below (by rw [hjidle]; decide)) (h.stands j).endpoint
  next => exact h

/-- A process starts over, or gives its leadership up, outside the acquisition. -/
theorem replace {p : Process} (hidle : p.stage = .idle)
    (hepoch : p.epoch ≤ recordedEpoch s.record) (hleader : p.isLeader = false) (i : Nat) :
    Carries ((s.update i p).releaseLock i) := by
  refine releaseLock
    (of_update (s := s) (i := i) (p := p) rfl h.announced h.recorded h.readable ?_ ?_) ?_
  · exact .of_idle hidle hepoch fun hleads => absurd (hleader.symm.trans hleads) (by decide)
  · exact fun j _ => ⟨(h.stands j).held, (h.stands j).below, (h.stands j).above,
      (h.stands j).fresh, (h.stands j).leads, (h.stands j).endpoint⟩
  · have hself : (s.update i p).processes i = p := Function.update_self _ _ _
    rw [hself]
    exact hidle

theorem step {e : Event} (hok : recordsItself s e) : Carries (step s e) := by
  cases e with
  | lock i => exact h.lock i
  | takeEpoch i => exact h.takeEpoch hok
  | publish i fate => exact h.publish hok
  | announce i => exact h.announce i
  | refresh i fate => exact h.refresh i fate
  | stop i =>
      simp only [HaLeadership.step, System.stop]
      split
      next hidle =>
        have hepoch := (h.stands i).below (by rw [hidle]; decide)
        exact h.replace (p := { s.processes i with isLeader := false }) hidle hepoch rfl i
      next => exact h
  | crash i host port => exact h.replace rfl (Nat.zero_le _) rfl i
  | lose i => exact h.releaseLock hok

end

end Carries

/-- The epoch on record never decreases.  In every history whose new leaders
have an endpoint, publish themselves and keep the lock until they announce
themselves, no epoch is announced twice, and later ones are greater. -/
theorem epochs_never_repeat (endpoint : Nat → List Char × Nat) (es : List Event)
    (h : Runs.Allowed step (fun _ s e => recordsItself s e) [] (start endpoint) es) :
    EpochsNeverRepeat endpoint es := by
  constructor
  · have hs : Carries (run endpoint es) :=
      (Runs.of_allowed h).induct (I := fun _ s => Carries s) (Carries.start endpoint)
        fun _ _ _ _ hs hok => hs.step hok
    exact hs.announced
  · intro pre post hes
    rw [hes, run, run, List.foldl_append]
    exact recordedEpoch_run _ post

/-- The first leader dies after publishing itself, and the second fails to
publish itself once before it does. -/
theorem failover_advances_epoch :
    (run (fun _ => ("jm".toList, 6123))
        [.lock 0, .takeEpoch 0, .publish 0 .landed, .announce 0, .refresh 0 (.failed false),
          .crash 0 "jm".toList 6123, .lock 1, .takeEpoch 1, .publish 1 (.failed true),
          .announce 1]).announced = [(0, 1), (1, 2)] ∧
      EpochsNeverRepeat (fun _ => ("jm".toList, 6123))
        [.lock 0, .takeEpoch 0, .publish 0 .landed, .announce 0, .refresh 0 (.failed false),
          .crash 0 "jm".toList 6123, .lock 1, .takeEpoch 1, .publish 1 (.failed true),
          .announce 1] := by
  exact ⟨by decide, epochs_never_repeat _ _ (by decide)⟩

end Clink.Ports.HaLeadership
