import Mathlib.Data.Prod.Lex
import Mathlib.Data.String.Basic
import Clink.Verified.BreadthFirst
import Clink.Verified.SortedMap

/-!
# State migration

The embedding of `StateMigrationRegistry` from `src/state/schema_version.cpp`.  A
migration is registered for a state type and two versions; a chain of them is
planned breadth first, and `migrate` feeds the value through its functions.
Without a chain two registered Arrow schemas that differ additively will do; what
rewrites the Arrow stream is a parameter, as are the registered functions.
-/

namespace Clink.Ports.StateMigration

open Clink.Verified

abbrev Bytes := List UInt8

/-! ## Additive schemas -/

inductive DataType where
  | signed (width : Nat)
  | unsigned (width : Nat)
  | other (name : String)
  deriving DecidableEq

structure Field where
  name : String
  type : DataType
  nullable : Bool
  deriving DecidableEq

abbrev Schema := List Field

def isNonNarrowingIntegerPromotion (old new : DataType) : Bool :=
  if old = new then true
  else
    match old, new with
    | .signed fs, .signed ts => ts ≥ fs
    | .unsigned fu, .unsigned tu => tu ≥ fu
    | _, _ => false

/-- `GetFieldIndex`: the field of that name, when there is exactly one. -/
def Schema.field? (schema : Schema) (name : String) : Option Field :=
  match schema.filter (·.name = name) with
  | [field] => some field
  | _ => none

def schemasAdditivelyCompatible (old new : Schema) : Bool :=
  old.all (fun f =>
    match Schema.field? new f.name with
    | none => false
    | some f' => isNonNarrowingIntegerPromotion f.type f'.type) &&
  new.all fun f => (Schema.field? old f.name).isSome || f.nullable

/-! ## The registry -/

variable {ε : Type}

/-- A registered function, which may throw. -/
abbrev MigrationFn (ε : Type) := Bytes → Except ε Bytes

structure Edge (ε : Type) where
  toVersion : Nat
  fn : MigrationFn ε

/-- A state type and a version of it. -/
abbrev Key := String ×ₗ Nat

structure Registry (ε : Type) where
  edges : SortedMap Key (List (Edge ε)) := .empty
  arrowSchemas : SortedMap Key Schema := .empty

inductive MigrateError (ε : Type) where
  | noPath (stateType : String) (fromVersion toVersion : Nat)
  | disappeared (stateType : String) (prev next : Nat)
  | thrown (e : ε)

/-- What the calls refuse to register. -/
inductive RegisterError where
  | sameVersion
  | nullFunction

/-- Put the function in the place of the one for the same version, or at the end. -/
def replaceEdge (toVersion : Nat) (fn : MigrationFn ε) : List (Edge ε) → List (Edge ε)
  | [] => [⟨toVersion, fn⟩]
  | e :: rest =>
      if e.toVersion = toVersion then ⟨toVersion, fn⟩ :: rest
      else e :: replaceEdge toVersion fn rest

namespace Registry

variable (reg : Registry ε) (arrowMigrateBytes : Bytes → Schema → Schema → Except ε Bytes)
  (stateType : String)

def registerMigration (fromVersion toVersion : Nat) (fn : Option (MigrationFn ε)) :
    Except RegisterError (Registry ε) :=
  if fromVersion = toVersion then .error .sameVersion
  else
    match fn with
    | none => .error .nullFunction
    | some fn =>
        .ok { reg with
          edges := reg.edges.upsert (toLex (stateType, fromVersion)) fun bucket =>
            replaceEdge toVersion fn (bucket.getD []) }

def bucket (version : Nat) : List (Edge ε) :=
  (reg.edges.find? (toLex (stateType, version))).getD []

/-- The versions a registered migration leads to. -/
def targets (version : Nat) : List Nat := (reg.bucket stateType version).map Edge.toVersion

/-- Every version some registered migration leads to. -/
def allTargets : Finset Nat :=
  (reg.edges.entries.flatMap fun e => e.2.map Edge.toVersion).toFinset

/-- The hops of a shortest chain; empty when there is none, and for no hop. -/
def planPathUnlocked (fromVersion toVersion : Nat) : List Nat :=
  if fromVersion = toVersion then []
  else
    (BreadthFirst.plan (reg.targets stateType) fromVersion toVersion
      (BreadthFirst.enough reg.allTargets)).getD []

/-- The function registered for one hop. -/
def fn? (prev next : Nat) : Option (MigrationFn ε) :=
  ((reg.bucket stateType prev).find? (·.toVersion = next)).map Edge.fn

def autoSchemas (fromVersion toVersion : Nat) : Option (Schema × Schema) :=
  match reg.arrowSchemas.find? (toLex (stateType, fromVersion)),
      reg.arrowSchemas.find? (toLex (stateType, toVersion)) with
  | some old, some new => if schemasAdditivelyCompatible old new then some (old, new) else none
  | _, _ => none

/-- The walk along a planned chain. -/
def walkChain : Nat → List Nat → Bytes → Except (MigrateError ε) Bytes
  | _, [], current => .ok current
  | prev, next :: rest, current =>
      match reg.fn? stateType prev next with
      | none => .error (.disappeared stateType prev next)
      | some fn =>
          match fn current with
          | .error e => .error (.thrown e)
          | .ok out => walkChain next rest out

def migrate (fromVersion toVersion : Nat) (input : Bytes) : Except (MigrateError ε) Bytes :=
  if fromVersion = toVersion then .ok input
  else
    match reg.planPathUnlocked stateType fromVersion toVersion with
    | [] =>
        match reg.autoSchemas stateType fromVersion toVersion with
        | some (old, new) => (arrowMigrateBytes input old new).mapError .thrown
        | none => .error (.noPath stateType fromVersion toVersion)
    | path => reg.walkChain stateType fromVersion path input

def hasPath (fromVersion toVersion : Nat) : Bool :=
  if fromVersion = toVersion then true
  else if !(reg.planPathUnlocked stateType fromVersion toVersion).isEmpty then true
  else (reg.autoSchemas stateType fromVersion toVersion).isSome

end Registry

/-! ## Registering -/

theorem find?_replaceEdge (toVersion next : Nat) (fn : MigrationFn ε)
    (bucket : List (Edge ε)) :
    ((replaceEdge toVersion fn bucket).find? (·.toVersion = next)).map Edge.fn =
      if next = toVersion then some fn
      else (bucket.find? (·.toVersion = next)).map Edge.fn := by
  induction bucket with
  | nil =>
      unfold replaceEdge
      rw [List.find?_cons]
      by_cases hnext : next = toVersion
      · simp [hnext]
      · simp [hnext, Ne.symm hnext]
  | cons e rest ih =>
      unfold replaceEdge
      by_cases hsame : e.toVersion = toVersion
      · rw [if_pos hsame, List.find?_cons, List.find?_cons]
        by_cases hnext : next = toVersion
        · simp [hnext]
        · simp [hnext, Ne.symm hnext, hsame]
      · rw [if_neg hsame, List.find?_cons, List.find?_cons]
        by_cases hnext : e.toVersion = next
        · have hother : next ≠ toVersion := fun heq => hsame (hnext.trans heq)
          simp [hnext, hother]
        · simp only [hnext, decide_false]
          exact ih

/-- A call of `register_migration`. -/
structure Registration (ε : Type) where
  stateType : String
  fromVersion : Nat
  toVersion : Nat
  fn : Option (MigrationFn ε)

/-- What the call puts at a hop. -/
def Registration.at? (r : Registration ε) (stateType : String) (prev next : Nat) :
    Option (MigrationFn ε) :=
  if r.stateType = stateType ∧ r.fromVersion = prev ∧ r.toVersion = next ∧ prev ≠ next then r.fn
  else none

namespace Registry

/-- A call that throws leaves the registry as it was. -/
def register (reg : Registry ε) (r : Registration ε) : Registry ε :=
  (reg.registerMigration r.stateType r.fromVersion r.toVersion r.fn).toOption.getD reg

theorem fn?_register (reg : Registry ε) (r : Registration ε) (stateType : String)
    (prev next : Nat) : (reg.register r).fn? stateType prev next =
      (r.at? stateType prev next).or (reg.fn? stateType prev next) := by
  obtain ⟨type, old, new, fn⟩ := r
  unfold register registerMigration Registration.at?
  by_cases hsame : old = new
  · rw [if_pos hsame, if_neg (by grind)]
    rfl
  rw [if_neg hsame]
  cases fn with
  | none => rw [ite_self]; rfl
  | some fn =>
      dsimp only [Except.toOption, Option.getD_some]
      unfold fn? bucket
      rw [SortedMap.find?_upsert]
      by_cases hkey : (toLex (stateType, prev) : Key) = toLex (type, old)
      · obtain ⟨rfl, rfl⟩ := Prod.mk.inj (toLex.injective hkey)
        rw [if_pos rfl, Option.getD_some, find?_replaceEdge]
        by_cases hnext : next = new <;> simp [hnext, hsame, eq_comm]
      · rw [if_neg hkey, if_neg]
        · rfl
        · rintro ⟨rfl, rfl, -⟩
          exact hkey rfl

/-- The function of a hop is the last one registered for it, whatever else was registered
or refused. -/
theorem fn?_registered (reg : Registry ε) (calls : List (Registration ε)) (stateType : String)
    (prev next : Nat) : (calls.foldl register reg).fn? stateType prev next =
      (calls.reverse.findSome? (·.at? stateType prev next)).or (reg.fn? stateType prev next) := by
  induction calls using List.reverseRecOn with
  | nil => rfl
  | append_singleton calls r ih =>
      rw [List.foldl_append, List.foldl_cons, List.foldl_nil, fn?_register, ih,
        List.reverse_concat, List.findSome?_cons]
      cases r.at? stateType prev next <;> rfl

end Registry

/-! ## Chains of functions -/

/-- A value through functions, one after the other, until one throws. -/
def feed : List (MigrationFn ε) → Bytes → Except (MigrateError ε) Bytes
  | [], current => .ok current
  | fn :: rest, current =>
      match fn current with
      | .error e => .error (.thrown e)
      | .ok out => feed rest out

section Chains

variable {reg : Registry ε} {stateType : String}

/-- The functions registered for the hops of a chain. -/
def Registry.chainFns (reg : Registry ε) (stateType : String) : Nat → List Nat →
    Option (List (MigrationFn ε))
  | _, [] => some []
  | prev, next :: rest =>
      match reg.fn? stateType prev next with
      | none => none
      | some fn => (reg.chainFns stateType next rest).map (fn :: ·)

private theorem fn?_of_mem_targets {prev next : Nat} (h : next ∈ reg.targets stateType prev) :
    ∃ fn, reg.fn? stateType prev next = some fn := by
  obtain ⟨e, he, rfl⟩ := List.mem_map.mp h
  cases hfind : (reg.bucket stateType prev).find? (·.toVersion = e.toVersion) with
  | none =>
      have hnone := List.find?_eq_none.mp hfind e he
      simp at hnone
  | some e' =>
      refine ⟨e'.fn, ?_⟩
      unfold Registry.fn?
      rw [hfind]
      rfl

/-- A chain of registered hops has its functions, and the walk feeds them. -/
theorem walkChain_eq_feed {path : List Nat} {prev last : Nat}
    (hwalk : BreadthFirst.Walk (reg.targets stateType) prev path last) :
    ∃ fns, reg.chainFns stateType prev path = some fns ∧
      ∀ input, reg.walkChain stateType prev path input = feed fns input := by
  induction path generalizing prev with
  | nil => exact ⟨[], rfl, fun input => rfl⟩
  | cons next rest ih =>
      obtain ⟨fn, hfn⟩ := fn?_of_mem_targets hwalk.1
      obtain ⟨fns, hfns, hfeed⟩ := ih hwalk.2
      refine ⟨fn :: fns, ?_, fun input => ?_⟩
      · unfold Registry.chainFns
        rw [hfn, hfns]
        rfl
      · unfold Registry.walkChain feed
        rw [hfn]
        dsimp only
        cases fn input with
        | error e => rfl
        | ok out => exact hfeed out

private theorem feed_ne_noPath (fns : List (MigrationFn ε)) (fromVersion toVersion : Nat) :
    ∀ input, feed fns input ≠ .error (.noPath stateType fromVersion toVersion) := by
  induction fns with
  | nil => exact fun input h => nomatch h
  | cons fn rest ih =>
      intro input
      unfold feed
      cases fn input with
      | error e => exact fun h => nomatch h
      | ok out => exact ih out

/-- The version a hop leads to is among those a search may visit. -/
theorem mem_allTargets {version next : Nat} (h : next ∈ reg.targets stateType version) :
    next ∈ reg.allTargets := by
  unfold Registry.targets Registry.bucket at h
  cases hfind : reg.edges.find? (toLex (stateType, version)) with
  | none =>
      rw [hfind] at h
      exact absurd h List.not_mem_nil
  | some bucket =>
      rw [hfind] at h
      have hentry := SortedMap.find?_eq_some_iff.mp hfind
      exact List.mem_toFinset.mpr (List.mem_flatMap.mpr ⟨_, hentry, h⟩)

end Chains

/-- Planning ends; it finds a chain exactly when there is one, and then a shortest.
`migrate` feeds the value through the functions of that chain, and fails for lack
of a path exactly when `hasPath` says there is none. -/
theorem migration_follows_plan (reg : Registry ε)
    (arrowMigrateBytes : Bytes → Schema → Schema → Except ε Bytes) (stateType : String)
    {fromVersion toVersion : Nat} (hne : fromVersion ≠ toVersion) :
    (∀ fuel, BreadthFirst.enough reg.allTargets ≤ fuel →
      BreadthFirst.plan (reg.targets stateType) fromVersion toVersion fuel =
        some (reg.planPathUnlocked stateType fromVersion toVersion)) ∧
    (reg.planPathUnlocked stateType fromVersion toVersion ≠ [] ↔
      ∃ walk, BreadthFirst.Walk (reg.targets stateType) fromVersion walk toVersion) ∧
    (reg.planPathUnlocked stateType fromVersion toVersion ≠ [] →
      BreadthFirst.Walk (reg.targets stateType) fromVersion
          (reg.planPathUnlocked stateType fromVersion toVersion) toVersion ∧
        ∀ walk, BreadthFirst.Walk (reg.targets stateType) fromVersion walk toVersion →
          (reg.planPathUnlocked stateType fromVersion toVersion).length ≤ walk.length) ∧
    (reg.planPathUnlocked stateType fromVersion toVersion ≠ [] →
      ∃ fns, reg.chainFns stateType fromVersion
          (reg.planPathUnlocked stateType fromVersion toVersion) = some fns ∧
        ∀ input, reg.migrate arrowMigrateBytes stateType fromVersion toVersion input =
          feed fns input) ∧
    ∀ input, reg.hasPath stateType fromVersion toVersion = true ↔
      reg.migrate arrowMigrateBytes stateType fromVersion toVersion input ≠
        .error (.noPath stateType fromVersion toVersion) := by
  obtain ⟨path, hplan, hreach, hshort⟩ := BreadthFirst.plan_spec
    (fun version next (h : next ∈ reg.targets stateType version) => mem_allTargets h) hne
    (Nat.le_refl (BreadthFirst.enough reg.allTargets))
  have hpath : reg.planPathUnlocked stateType fromVersion toVersion = path := by
    unfold Registry.planPathUnlocked
    rw [if_neg hne, hplan]
    rfl
  have hmigrate : path ≠ [] → ∃ fns, reg.chainFns stateType fromVersion path = some fns ∧
      ∀ input,
        reg.migrate arrowMigrateBytes stateType fromVersion toVersion input = feed fns input := by
    intro hsome
    obtain ⟨fns, hfns, hfeed⟩ := walkChain_eq_feed (hshort hsome).1
    refine ⟨fns, hfns, fun input => ?_⟩
    unfold Registry.migrate
    rw [if_neg hne, hpath]
    cases path with
    | nil => exact absurd rfl hsome
    | cons next rest => exact hfeed input
  refine ⟨fun fuel hfuel => ?_, ?_, ?_, ?_, fun input => ?_⟩
  · rw [hpath]
    exact BreadthFirst.plan_mono hfuel hplan
  · rw [hpath]
    exact hreach
  · rw [hpath]
    exact hshort
  · rw [hpath]
    exact hmigrate
  · unfold Registry.hasPath
    rw [if_neg hne, hpath]
    cases path with
    | cons next rest =>
        obtain ⟨fns, -, hfeed⟩ := hmigrate (List.cons_ne_nil _ _)
        rw [hfeed input]
        exact ⟨fun _ => feed_ne_noPath fns fromVersion toVersion input, fun _ => rfl⟩
    | nil =>
        unfold Registry.migrate
        rw [if_neg hne, hpath]
        cases reg.autoSchemas stateType fromVersion toVersion with
        | none => exact ⟨fun h => absurd h Bool.false_ne_true, fun h => absurd rfl h⟩
        | some schemas =>
            refine ⟨fun _ => ?_, fun _ => rfl⟩
            dsimp only
            cases arrowMigrateBytes input schemas.1 schemas.2 with
            | error e => exact fun h => nomatch h
            | ok out => exact fun h => nomatch h

/-- A cycle, a direct way and a longer one, each hop leaving its mark in the value. -/
def counterMigrations : Registry Unit where
  edges := [(1, [2, 4]), (2, [1, 3]), (4, [5]), (5, [3])].foldl
    (fun edges e => edges.upsert (toLex ("counter", e.1)) fun _ =>
      e.2.map fun v => ⟨v, fun bytes => .ok (bytes ++ [UInt8.ofNat v])⟩) .empty

theorem migration_follows_plan_counter :
    counterMigrations.planPathUnlocked "counter" 1 3 = [2, 3] ∧
      BreadthFirst.Walk (counterMigrations.targets "counter") 1 [2, 3] 3 ∧
      (∀ walk, BreadthFirst.Walk (counterMigrations.targets "counter") 1 walk 3 →
        2 ≤ walk.length) ∧
      ∀ input, counterMigrations.migrate (fun bytes _ _ => .ok bytes) "counter" 1 3 input ≠
        .error (.noPath "counter" 1 3) := by
  have hplan : counterMigrations.planPathUnlocked "counter" 1 3 = [2, 3] := by decide +kernel
  obtain ⟨-, -, hshort, -, hhas⟩ := migration_follows_plan counterMigrations
    (fun bytes _ _ => .ok bytes) "counter" (show 1 ≠ 3 by decide)
  rw [hplan] at hshort
  obtain ⟨hwalk, hleast⟩ := hshort (List.cons_ne_nil _ _)
  exact ⟨hplan, hwalk, hleast, fun input => (hhas input).mp (by decide +kernel)⟩

end Clink.Ports.StateMigration
