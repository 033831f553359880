import Mathlib.Algebra.Order.Ring.Int
import Relay.Errors
import Relay.Lib.Dict
import Relay.Lib.Machine

/-!
# The metadata cache

The controller decides who leads each partition, and every decision makes a new version of its
metadata. A client keeps a copy and replaces it when it learns that the copy is out of date, in one
of two ways. A response that carries a newer version brings the whole map of that version. A
not-leader error brings one partition's new leader and a version; the client puts the leader into
its copy and takes over the version.

The second way is where the copy can part from the version it is marked with: the other partitions
stay as they were, although more of them may have changed between the two versions. And once it is
marked with the newer version, a response with the whole map of that version is not newer any more
and is ignored. The condition under which the mark is right is exact, call by call (`OneBehind`).

## Scope

The lookups of one leader are left out, in the metadata and in the cache, and so is the route that
the controller refuses to a broker with an older version. So are the reports on the refreshes, which
are counted.

## Main definitions

* `MetadataCache`, with `install`, `onNotLeader` and `onNewerVersionSeen`
* `Controller`, with `updateLeader`
* `MetadataWorld`: a controller with every metadata it has had, and a client's cache

## Main results

* `oneBehind_iff_truthful`: a cache always matches its version exactly when no not-leader error
  skips a change of another partition
-/

namespace Relay

/-! ## The controller -/

/-- A version of the metadata. -/
structure Metadata where
  version : ℤ
  leaders : Dict ℤ String

/-- The controller. -/
structure Controller where
  controllerEpoch : ℤ
  metadata : Metadata
  updatesApplied : ℤ := 0

/-- `update_leader`. -/
def Controller.updateLeader (controller : Controller) (epoch partition : ℤ) (leader : String) :
    Except RelayError String × Controller :=
  if epoch < controller.controllerEpoch then
    (.error (.fenced (s!"metadata update from controller epoch {epoch} "
      ++ "rejected; the current controller is at "
      ++ s!"{controller.controllerEpoch}, and two controllers is the cluster-level split brain")),
      controller)
  else
    let metadata : Metadata :=
      { version := controller.metadata.version + 1
        leaders := controller.metadata.leaders.set partition leader }
    (.ok s!"partition {partition} leader is {leader}, metadata version {metadata.version}",
      { controller with metadata := metadata, updatesApplied := controller.updatesApplied + 1 })

/-! ## The cache -/

/-- A client's copy of the metadata. -/
structure MetadataCache where
  version : ℤ := 0
  leaders : Dict ℤ String := ∅
  refreshesOnError : ℤ := 0
  refreshesProactive : ℤ := 0

namespace MetadataCache

/-- `install`. -/
def install (cache : MetadataCache) (version : ℤ) (leaders : Dict ℤ String) :
    Except RelayError Unit × MetadataCache :=
  if version < cache.version then
    (.error (.invalid ("cannot install an older metadata version over "
      ++ "a newer one; that would route backward in time")), cache)
  else (.ok (), { cache with version := version, leaders := leaders })

/-- `on_not_leader`. The error is counted even when the version is refused. -/
def onNotLeader (cache : MetadataCache) (partition newVersion : ℤ) (newLeader : String) :
    Except RelayError String × MetadataCache :=
  let counted := { cache with refreshesOnError := cache.refreshesOnError + 1 }
  let installed := counted.install newVersion (counted.leaders.set partition newLeader)
  (installed.1.map fun _ => s!"refreshed on not-leader error: partition "
    ++ s!"{partition} now on {newLeader}; corrected exactly when proven wrong", installed.2)

/-- `on_newer_version_seen`. -/
def onNewerVersionSeen (cache : MetadataCache) (seenVersion : ℤ)
    (refreshedLeaders : Dict ℤ String) : Except RelayError String × MetadataCache :=
  if seenVersion ≤ cache.version then (.ok "no refresh: the seen version is not newer", cache)
  else
    let counted := { cache with refreshesProactive := cache.refreshesProactive + 1 }
    let installed := counted.install seenVersion refreshedLeaders
    (installed.1.map fun _ => s!"refreshed proactively to version {seenVersion}; a "
      ++ "response with a newer version is the broker saying the view moved", installed.2)

end MetadataCache

/-! ## A controller and a client -/

/-- A controller, every metadata it has had up to now, and a client's cache. -/
structure MetadataWorld where
  controller : Controller
  history : List Metadata
  cache : MetadataCache

/-- What happens: the controller is asked for an update, or the client hears of the metadata that
stands at a position of the history, by an error for one partition or in whole. -/
inductive MetadataCall where
  | updateLeader (epoch partition : ℤ) (leader : String)
  | onNotLeader (position : ℕ) (partition : ℤ)
  | onNewerVersionSeen (position : ℕ)

namespace MetadataWorld

/-- The leader of a partition in the metadata at a position, with the metadata. -/
def leaderAt (world : MetadataWorld) (position : ℕ) (partition : ℤ) : Option (Metadata × String) :=
  world.history[position]?.bind fun metadata =>
    (metadata.leaders.get? partition).map fun leader => (metadata, leader)

theorem mem_of_leaderAt {world : MetadataWorld} {position : ℕ} {partition : ℤ} {metadata : Metadata}
    {leader : String} (h : world.leaderAt position partition = some (metadata, leader)) :
    metadata ∈ world.history ∧ metadata.leaders.get? partition = some leader := by
  obtain ⟨metadata', hmetadata, hleader⟩ := Option.bind_eq_some_iff.mp h
  obtain ⟨leader', hleader', hpair⟩ := Option.map_eq_some_iff.mp hleader
  obtain ⟨rfl, rfl⟩ := Prod.mk.inj hpair
  exact ⟨List.mem_of_getElem? hmetadata, hleader'⟩

/-- An update, which the history keeps if it is applied. -/
def updateLeader (world : MetadataWorld) (epoch partition : ℤ) (leader : String) :
    Except RelayError String × MetadataWorld :=
  match world.controller.updateLeader epoch partition leader with
  | (.error e, controller) => (.error e, { world with controller := controller })
  | (.ok note, controller) =>
    (.ok note, { world with
      controller := controller
      history := world.history ++ [controller.metadata] })

/-- A not-leader error. Nothing is delivered if there is no such leader. -/
def onNotLeader (world : MetadataWorld) (position : ℕ) (partition : ℤ) :
    Option (Except RelayError String) × MetadataWorld :=
  match world.leaderAt position partition with
  | none => (none, world)
  | some (metadata, leader) =>
    (world.cache.onNotLeader partition metadata.version leader).map some
      fun cache => { world with cache := cache }

/-- A response with a whole map. -/
def onNewerVersionSeen (world : MetadataWorld) (position : ℕ) :
    Option (Except RelayError String) × MetadataWorld :=
  match world.history[position]? with
  | none => (none, world)
  | some metadata =>
    (world.cache.onNewerVersionSeen metadata.version metadata.leaders).map some
      fun cache => { world with cache := cache }

end MetadataWorld

/-- The controller and the client as one component. -/
def metadataWorld : Machine MetadataWorld MetadataCall (Option (Except RelayError String)) where
  step world
    | .updateLeader epoch partition leader =>
      (world.updateLeader epoch partition leader).map some id
    | .onNotLeader position partition => world.onNotLeader position partition
    | .onNewerVersionSeen position => world.onNewerVersionSeen position

/-- The cache has the map of the version it is marked with. -/
def MetadataWorld.Truthful (world : MetadataWorld) : Prop :=
  ∀ metadata ∈ world.history, metadata.version = world.cache.version →
    ∀ p, world.cache.leaders.get? p = metadata.leaders.get? p

/-- A not-leader error that is accepted brings the only change since the cached version. -/
def MetadataWorld.OneBehind (world : MetadataWorld) : MetadataCall → Prop
  | .onNotLeader position partition => ∀ metadata leader,
      world.leaderAt position partition = some (metadata, leader) →
      world.cache.version ≤ metadata.version →
        ∀ cached ∈ world.history, cached.version = world.cache.version →
          ∀ p ≠ partition, cached.leaders.get? p = metadata.leaders.get? p
  | .updateLeader _ _ _ | .onNewerVersionSeen _ => True

/-- What a call does: nothing to the maps and versions, an update, a refresh by an error, or a
refresh by a newer version. -/
inductive MetadataStep (world : MetadataWorld) : MetadataCall → MetadataWorld → Prop
  | idle {call : MetadataCall} {cache : MetadataCache}
      (version : cache.version = world.cache.version)
      (leaders : cache.leaders = world.cache.leaders) (oneBehind : world.OneBehind call) :
      MetadataStep world call { world with cache := cache }
  | updated {epoch partition : ℤ} {leader : String} {controller : Controller}
      (version : controller.metadata.version = world.controller.metadata.version + 1) :
      MetadataStep world (.updateLeader epoch partition leader) { world with
        controller := controller
        history := world.history ++ [controller.metadata] }
  | onError {position : ℕ} {partition : ℤ} {metadata : Metadata} {leader : String}
      {cache : MetadataCache}
      (leaderAt : world.leaderAt position partition = some (metadata, leader))
      (le : world.cache.version ≤ metadata.version) (version : cache.version = metadata.version)
      (leaders : cache.leaders = world.cache.leaders.set partition leader) :
      MetadataStep world (.onNotLeader position partition) { world with cache := cache }
  | proactive {position : ℕ} {metadata : Metadata} {cache : MetadataCache}
      (mem : metadata ∈ world.history) (version : cache.version = metadata.version)
      (leaders : cache.leaders = metadata.leaders) :
      MetadataStep world (.onNewerVersionSeen position) { world with cache := cache }

theorem metadataStep_step (world : MetadataWorld) (call : MetadataCall) :
    MetadataStep world call (metadataWorld.step world call).2 := by
  cases call with
  | updateLeader epoch partition leader =>
    simp only [metadataWorld, MetadataWorld.updateLeader, Controller.updateLeader]
    split
    · next hcontroller =>
      split at hcontroller
      · obtain ⟨-, rfl⟩ := Prod.mk.inj hcontroller
        exact .idle rfl rfl trivial
      · cases (Prod.mk.inj hcontroller).1
    · next hcontroller =>
      split at hcontroller
      · cases (Prod.mk.inj hcontroller).1
      · obtain ⟨-, rfl⟩ := Prod.mk.inj hcontroller
        exact .updated rfl
  | onNotLeader position partition =>
    simp only [metadataWorld, MetadataWorld.onNotLeader]
    split
    · next hnone =>
      refine .idle rfl rfl fun metadata leader hsome => ?_
      rw [hnone] at hsome
      cases hsome
    · next metadata leader hsome =>
      simp only [MetadataCache.onNotLeader, MetadataCache.install]
      split
      · next hlt =>
        refine .idle rfl rfl fun metadata' leader' hsome' hle => ?_
        rw [hsome] at hsome'
        obtain ⟨rfl, -⟩ := Prod.mk.inj (Option.some.inj hsome')
        exact absurd hle (not_le.mpr hlt)
      · next hle => exact .onError hsome (not_lt.mp hle) rfl rfl
  | onNewerVersionSeen position =>
    simp only [metadataWorld, MetadataWorld.onNewerVersionSeen]
    split
    · exact .idle rfl rfl trivial
    · next metadata hmetadata =>
      rw [MetadataCache.onNewerVersionSeen]
      split
      · exact .idle rfl rfl trivial
      · next hnewer =>
        have hle : ¬ metadata.version < world.cache.version := fun hlt => hnewer hlt.le
        simp only [MetadataCache.install, if_neg hle]
        exact .proactive (List.mem_of_getElem? hmetadata) rfl rfl

/-- The history is one that a controller can have had: the current metadata is the last, and no
version stands for two maps. -/
structure Controller.HasHistory (controller : Controller) (history : List Metadata) : Prop where
  current : controller.metadata ∈ history
  le : ∀ m ∈ history, m.version ≤ controller.metadata.version
  unique : ∀ m ∈ history, ∀ m' ∈ history, m.version = m'.version → m = m'

/-- The history, and the cache is marked with a version in it. -/
structure MetadataWorld.Known (world : MetadataWorld) : Prop where
  hasHistory : world.controller.HasHistory world.history
  known : ∃ m ∈ world.history, m.version = world.cache.version

theorem MetadataWorld.Known.step {world world' : MetadataWorld} {call : MetadataCall}
    (h : world.Known) (hstep : MetadataStep world call world') : world'.Known := by
  cases hstep with
  | idle version leaders oneBehind => exact ⟨h.hasHistory, version ▸ h.known⟩
  | updated version =>
    have hnew : ∀ m ∈ world.history, m.version < world.controller.metadata.version + 1 :=
      fun m hm => Int.lt_add_one_of_le (h.hasHistory.le m hm)
    rw [← version] at hnew
    refine ⟨⟨List.mem_append_right _ (List.mem_singleton_self _), ?_, ?_⟩, ?_⟩
    · exact forall_mem_append_singleton.mpr ⟨fun m hm => (hnew m hm).le, le_rfl⟩
    · intro m hm m' hm' hversion
      rcases List.mem_append.mp hm with hm | hm <;> rcases List.mem_append.mp hm' with hm' | hm'
      · exact h.hasHistory.unique m hm m' hm' hversion
      · obtain rfl := List.mem_singleton.mp hm'
        exact absurd hversion (hnew m hm).ne
      · obtain rfl := List.mem_singleton.mp hm
        exact absurd hversion (hnew m' hm').ne'
      · rw [List.mem_singleton.mp hm, List.mem_singleton.mp hm']
    · obtain ⟨m, hm, hversion⟩ := h.known
      exact ⟨m, List.mem_append_left _ hm, hversion⟩
  | onError leaderAt le version leaders =>
    exact ⟨h.hasHistory, _, (MetadataWorld.mem_of_leaderAt leaderAt).1, version.symm⟩
  | proactive mem version leaders => exact ⟨h.hasHistory, _, mem, version.symm⟩

/-- **One call.** From a cache that is right, a call leads to one that is right exactly when it does
not skip a change. -/
theorem MetadataWorld.Known.oneBehind_iff {world world' : MetadataWorld} {call : MetadataCall}
    (h : world.Known) (htruthful : world.Truthful) (hstep : MetadataStep world call world') :
    world.OneBehind call ↔ world'.Truthful := by
  obtain ⟨cached, hcached, hversion⟩ := h.known
  cases hstep with
  | idle version leaders oneBehind =>
    refine iff_of_true oneBehind fun m hm hm' p => ?_
    rw [leaders]
    exact htruthful m hm (hm'.trans version) p
  | updated version =>
    refine iff_of_true trivial (forall_mem_append_singleton.mpr ⟨htruthful, fun hnew => ?_⟩)
    -- the new version is above the cached one
    have hle := h.hasHistory.le cached hcached
    rw [version, ← hversion] at hnew
    omega
  | @onError position partition metadata leader cache leaderAt le version leaders =>
    obtain ⟨hmetadata, hleader⟩ := mem_of_leaderAt leaderAt
    constructor
    · intro hbehind m hm hm' p
      obtain rfl := h.hasHistory.unique m hm metadata hmetadata (hm'.trans version)
      rw [leaders, Dict.get?_set]
      split
      · next hp => rw [hp, hleader]
      · next hp =>
        rw [htruthful cached hcached hversion p]
        exact hbehind m leader leaderAt le cached hcached hversion p hp
    · intro htruthful' metadata' leader' leaderAt' _ cached' hcached' hversion' p hp
      rw [leaderAt] at leaderAt'
      obtain ⟨rfl, -⟩ := Prod.mk.inj (Option.some.inj leaderAt')
      rw [← htruthful' metadata hmetadata version.symm p, leaders, Dict.get?_set_of_ne _ _ hp]
      exact (htruthful cached' hcached' hversion' p).symm
  | @proactive position metadata cache mem version leaders =>
    refine iff_of_true trivial fun m hm hm' p => ?_
    obtain rfl := h.hasHistory.unique m hm metadata mem (hm'.trans version)
    rw [leaders]

/-- **When a cache tells the truth about its version.** Let a cache be installed from a controller's
metadata. In every later run of updates and of responses made from any of the controller's metadata,
in any order, the cache has the controller's map of its version in every state, exactly when every
not-leader error that is accepted finds no partition other than its own changed between the cached
version and the one it brings. -/
theorem oneBehind_iff_truthful (controller : Controller) (history : List Metadata)
    (cache : MetadataCache) (hhistory : controller.HasHistory history)
    (hinstall : (cache.install controller.metadata.version controller.metadata.leaders).1 = .ok ())
    (calls : List MetadataCall) :
    metadataWorld.Guarded MetadataWorld.OneBehind ⟨controller, history,
        (cache.install controller.metadata.version controller.metadata.leaders).2⟩ calls ↔
      ∀ past, past <+: calls → (metadataWorld.final ⟨controller, history,
        (cache.install controller.metadata.version controller.metadata.leaders).2⟩
        past).Truthful := by
  have hinstalled : (cache.install controller.metadata.version controller.metadata.leaders).2 =
      { cache with
        version := controller.metadata.version
        leaders := controller.metadata.leaders } := by
    rw [MetadataCache.install] at hinstall ⊢
    split at hinstall
    · cases hinstall
    · next hle => rw [if_neg hle]
  rw [hinstalled, Machine.guarded_iff_justified]
  refine justified_iff_forall_past ?_ fun past call _ htruthful => ?_
  · intro m hm hversion p
    obtain rfl := hhistory.unique m hm _ hhistory.current hversion
    rfl
  · have hknown : (metadataWorld.final ⟨controller, history, { cache with
        version := controller.metadata.version
        leaders := controller.metadata.leaders }⟩ past).Known :=
      Machine.always ⟨hhistory, _, hhistory.current, rfl⟩
        (fun world call h => h.step (metadataStep_step world call)) past
    rw [Machine.final_append_singleton]
    exact hknown.oneBehind_iff htruthful (metadataStep_step _ call)

/-- One update and its not-leader error: the cache follows. -/
theorem oneBehind_iff_truthful_one_update :
    (metadataWorld.final ⟨⟨0, ⟨0, .ofList [(1, "a"), (2, "a")]⟩, 0⟩,
      [⟨0, .ofList [(1, "a"), (2, "a")]⟩],
      (MetadataCache.install {} 0 (.ofList [(1, "a"), (2, "a")])).2⟩
      [.updateLeader 0 1 "b", .onNotLeader 1 1]).Truthful := by
  have hhistory : Controller.HasHistory ⟨0, ⟨0, .ofList [(1, "a"), (2, "a")]⟩, 0⟩
      [⟨0, .ofList [(1, "a"), (2, "a")]⟩] :=
    ⟨List.mem_singleton_self _, by simp, by simp⟩
  have h := oneBehind_iff_truthful ⟨0, ⟨0, .ofList [(1, "a"), (2, "a")]⟩, 0⟩
    [⟨0, .ofList [(1, "a"), (2, "a")]⟩] {} hhistory rfl [.updateLeader 0 1 "b", .onNotLeader 1 1]
  refine h.mp ⟨trivial, ?_, trivial⟩ _ List.prefix_rfl
  intro metadata leader hleader _ cached hcached hversion p hp
  obtain ⟨rfl, -⟩ := Prod.mk.inj (Option.some.inj hleader)
  rcases List.mem_pair.mp hcached with rfl | rfl
  · exact (Dict.get?_set_of_ne _ "b" hp).symm
  · rfl

/-- Two partitions move, and the client hears of one of them by an error: its cache is marked with
the newest version and has the old leader of the other partition, also after it has heard of the
whole map. -/
theorem onNotLeader_not_truthful :
    (MetadataCache.install {} 0 (.ofList [(1, "a"), (2, "a")])).1 = .ok () ∧
      ¬ (metadataWorld.final ⟨⟨0, ⟨0, .ofList [(1, "a"), (2, "a")]⟩, 0⟩,
        [⟨0, .ofList [(1, "a"), (2, "a")]⟩],
        (MetadataCache.install {} 0 (.ofList [(1, "a"), (2, "a")])).2⟩
        [.updateLeader 0 1 "b", .updateLeader 0 2 "b", .onNotLeader 2 2,
          .onNewerVersionSeen 2]).Truthful := by
  refine ⟨rfl, fun h => ?_⟩
  have hleader := h ⟨2, .ofList [(1, "b"), (2, "b")]⟩ (List.mem_of_getElem? (i := 2) rfl) rfl 1
  have hsame : "a" = "b" := Option.some.inj hleader
  exact absurd hsame (by decide)

end Relay
