import ChainedTable.Proofs.Contract
import ChainedTable.Proofs.Effects
import ChainedTable.Proofs.Snapshot

/-!
# ChainedTable.Proofs.Distinct

When the keys on a chain are distinct, whatever the hashes.

A hash policy may hash keys apart that it compares as equal. An entry is only
made after a search of one chain, and entries change chains by their hashes
alone: no key is compared. So keys that compare as equal are kept apart as long
as no two of them can meet that have not met before. What that takes is said of
hashes (`HashPolicy.Coherent`), for the levels that a run goes through.

1. Keys with one hash never meet unnoticed: entries with the same hash are
   distinct in every table that can be reached.
2. At one level all hashes are coherent, so a run without a resize keeps the keys
   on every chain distinct, and a key that was removed is not found afterwards.
3. Lawful hashes are coherent at all levels.
4. A resize can bring two equal keys together. `twins` grew once, and has an entry
   for a key that was just erased (`twins_remain`).
-/

namespace ChainedTable

variable {F ε K KS V VS σ ω : Type} {κ : Keeper} {p : Policies ε K KS V VS κ}

/-! ## hash policies -/

namespace HashPolicy

variable {hasher : HashPolicy K}

/-- To compare as equal is an equivalence. -/
structure Equates (hasher : HashPolicy K) : Prop where
  refl (a : K) : hasher.compare a a = .eq
  symm {a b : K} : hasher.compare a b = .eq → hasher.compare b a = .eq
  trans {a b c : K} : hasher.compare a b = .eq → hasher.compare b c = .eq →
    hasher.compare a c = .eq

/-- Two hashes have one bucket at a level. -/
def Share (level : Level) (a b : UInt64) : Prop :=
  a.toNat % level.buckets = b.toNat % level.buckets

/-- Keys that compare as equal share a bucket at all of the levels or at none. -/
def Coherent (hasher : HashPolicy K) (levels : Level → Prop) : Prop :=
  ∀ {a b : K} {level other : Level}, hasher.compare a b = .eq → levels level → levels other →
    Share level (hasher.hash a) (hasher.hash b) → Share other (hasher.hash a) (hasher.hash b)

theorem Lawful.equates (h : hasher.Lawful) : hasher.Equates := ⟨h.refl, h.symm, h.trans⟩

theorem Lawful.coherent (h : hasher.Lawful) (levels : Level → Prop) : hasher.Coherent levels := by
  intro a b level other heq _ _ _
  rw [h.hash_eq heq]
  rfl

theorem coherent_singleton (hasher : HashPolicy K) (level : Level) :
    hasher.Coherent (· = level) := by
  rintro a b _ _ - rfl rfl hshare
  exact hshare

end HashPolicy

open HashPolicy

namespace Table

/-! ## the invariant -/

/-- Entries whose hashes meet have keys that do not compare as equal, and every
hash is that of a key like the one that is stored. -/
structure Apart (meets : UInt64 → UInt64 → Prop) (t : Table F p) : Prop where
  hashed {id : EntryId} {held : Holding KS VS} : t.holding? id = some held →
    ∃ source, held.hash = p.hasher.hash source ∧
      p.hasher.compare (p.keys.view held.key) source = .eq
  apart {id other : EntryId} {held held' : Holding KS VS} : t.holding? id = some held →
    t.holding? other = some held' → id ≠ other → meets held.hash held'.hash →
    p.hasher.compare (p.keys.view held.key) (p.keys.view held'.key) ≠ .eq

/-- What can meet are keys that share a bucket at the level of the table. -/
def MeetsOnChains (meets : UInt64 → UInt64 → Prop) (t : Table F p) : Prop :=
  ∀ {a b : K}, p.hasher.compare a b = .eq → meets (p.hasher.hash a) (p.hasher.hash b) →
    Share t.level (p.hasher.hash a) (p.hasher.hash b)

variable {t t' : Table F p} {meets : UInt64 → UInt64 → Prop}

/-- The chain of a hash is that of all hashes that share its bucket. -/
theorem Sound.bucketOf_eq_iff (h : t.Sound) {a b : UInt64} :
    t.bucketOf a = t.bucketOf b ↔ Share t.level a b := by
  rw [Chains.bucketOf, Chains.bucketOf, h.buckets]
  rfl

namespace Apart

theorem empty (band : DensityBand F) : (Table.empty band : Table F p).Apart meets where
  hashed hheld := by simp [Chains.holding?, Table.empty, Chains.empty] at hheld
  apart hheld := by simp [Chains.holding?, Table.empty, Chains.empty] at hheld

/-- Taking entries away and changing values leaves keys apart. -/
theorem of_kept (h : t.Apart meets) (hkept : ∀ {id : EntryId} {held : Holding KS VS},
    t'.holding? id = some held → ∃ value, t.holding? id = some { held with value }) :
    t'.Apart meets where
  hashed hheld := by
    obtain ⟨value, hvalue⟩ := hkept hheld
    obtain ⟨source, hsource⟩ := h.hashed hvalue
    exact ⟨source, hsource⟩
  apart hheld hheld' hne := by
    obtain ⟨value, hvalue⟩ := hkept hheld
    obtain ⟨value', hvalue'⟩ := hkept hheld'
    have hapart := h.apart hvalue hvalue' hne
    exact hapart

theorem trims (h : t.Apart meets) (htrims : t.Trims t') : t'.Apart meets :=
  h.of_kept htrims.kept

theorem congr (h : t.Apart meets) (hsame : ∀ id, t'.holding? id = t.holding? id) :
    t'.Apart meets :=
  h.of_kept fun {id held} hheld => ⟨held.value, (hsame id).symm.trans hheld⟩

/-- An entry whose hash can meet that of a key is on the chain of the key, if the
stored key compares as equal to it. -/
theorem mem_chain (h : t.Apart meets) (hsound : t.Sound) (hequates : p.hasher.Equates)
    (hmeets : t.MeetsOnChains meets) {id : EntryId} {held : Holding KS VS}
    (hheld : t.holding? id = some held) {key : K}
    (heq : p.hasher.compare (p.keys.view held.key) key = .eq)
    (hmeet : meets held.hash (p.hasher.hash key)) : id ∈ t.chain (t.home key) := by
  obtain ⟨source, hsource, hcompare⟩ := h.hashed hheld
  rw [hsource] at hmeet
  have hshare := hmeets (hequates.trans (hequates.symm hcompare) heq) hmeet
  have hmem := hsound.wellLinked.listed hheld
  rw [hsource, hsound.bucketOf_eq_iff.mpr hshare] at hmem
  exact hmem

/-- **A new entry** is distinct from all that it can meet: they are on the chain
that was searched for it. -/
theorem linkNew (h : t.Apart meets) (hsound : t.Sound) (hequates : p.hasher.Equates)
    (hkeys : p.FaithfulKeys) (hsymm : ∀ {a b}, meets a b → meets b a)
    (hmeets : t.MeetsOnChains meets) {granted : Bool} {arena : Arena κ (Entry KS VS)} {copies : ε}
    {key : K} {storedKey : KS}
    (hroom : t.arena.reserve granted = some arena) (hfound : (t.probe key).found = none)
    (hkey : p.keys.acquire copies key = .ok storedKey) (value : Option VS) :
    (t.linkNew arena key storedKey value).Apart meets := by
  have hstored := hkeys hkey
  have hnew := hsound.holding?_linkNew hroom key storedKey value
  have hnone := (probe_not_found hsound.wellLinked hfound).2
  have hdistinct {id : EntryId} {held : Holding KS VS} (hheld : t.holding? id = some held)
      (hmeet : meets held.hash (p.hasher.hash key)) :
      p.hasher.compare (p.keys.view held.key) (p.keys.view storedKey) ≠ .eq := by
    intro heq
    have hsame := hequates.trans heq hstored
    exact hnone id (h.mem_chain hsound hequates hmeets hheld hsame hmeet) ⟨held, hheld, hsame⟩
  refine ⟨fun {id held} hheld => ?_, fun {id other held held'} hheld hheld' hne hmeet => ?_⟩
  · rw [hnew] at hheld
    split at hheld
    · obtain rfl := Option.some.inj hheld
      exact ⟨key, rfl, hstored⟩
    · exact h.hashed hheld
  · rw [hnew] at hheld hheld'
    -- Of two different entries one at most is the new one.
    split at hheld
    · next hid =>
        split at hheld'
        · next hother => exact absurd (hid.trans hother.symm) hne
        · obtain rfl := Option.some.inj hheld
          exact fun heq => hdistinct hheld' (hsymm hmeet) (hequates.symm heq)
    · split at hheld'
      · obtain rfl := Option.some.inj hheld'
        exact hdistinct hheld hmeet
      · exact h.apart hheld hheld' hne hmeet

/-- **A request** keeps apart what can meet at the level where it starts. -/
theorem run [Scale F] (h : t.Apart meets) (hsound : t.Sound) (hequates : p.hasher.Equates)
    (hkeys : p.FaithfulKeys) (hsymm : ∀ {a b}, meets a b → meets b a)
    (hmeets : t.MeetsOnChains meets) (supply : Supply ε) (request : Request F ε K V VS σ ω) :
    (request.run supply t).table.Apart meets := by
  have heffect := hsound.effect_run supply request
  generalize (request.run supply t).table = t' at heffect ⊢
  cases heffect with
  | rests _ htrims _ => exact h.trims htrims
  | @comes _ _ _ _ _ storedKey value _ _ hfound hroom hkey htrims _ =>
      have hlinked := hsound.linkNew hroom hfound storedKey value
      have happart := h.linkNew hsound hequates hkeys hsymm hmeets hroom hfound hkey value
      exact (happart.congr (hlinked.holding?_densityStep supply)).trims htrims
  | leaves _ htrims hrest _ => exact (h.trims htrims).congr (hrest.holding?_densityStep supply)
  | clears =>
      refine h.of_kept fun {id held} hheld => ?_
      rw [Chains.holding?, Table.clear, Chains.clear, Arena.get?_clear] at hheld
      contradiction
  | steps => exact h.congr (hsound.holding?_densityStep supply)
  | walks htrims hrest _ => exact (h.trims htrims).congr (hrest.holding?_restoreBand supply)

end Apart

/-! ## runs -/

/-- A table that some run of requests ends with, where every request leaves the
table at one of some levels. -/
inductive KeepsTo [Scale F] (levels : Level → Prop) : Table F p → Prop where
  | made {t : Table F p} {supply : Supply ε} {band : DensityBand F} :
    withBand supply band = .ok t → levels t.level → KeepsTo levels t
  | request {t : Table F p} {σ ω : Type} (supply : Supply ε) (request : Request F ε K V VS σ ω) :
    KeepsTo levels t → levels (request.run supply t).table.level →
      KeepsTo levels (request.run supply t).table

section Runs

variable [Scale F] {levels : Level → Prop}

theorem KeepsTo.level (h : KeepsTo levels t) : levels t.level := by
  cases h with
  | made _ hlevel => exact hlevel
  | request _ _ _ hlevel => exact hlevel

theorem KeepsTo.sound (h : KeepsTo levels t) : t.Sound := by
  induction h with
  | made hmade _ =>
      rw [eq_empty_of_withBand hmade]
      exact .empty _
  | request supply request _ _ ih => exact ih.run supply request

/-- What meets only where it shares a bucket is kept apart by every run. -/
theorem KeepsTo.apart (h : KeepsTo levels t) (hequates : p.hasher.Equates)
    (hkeys : p.FaithfulKeys) (hsymm : ∀ {a b}, meets a b → meets b a)
    (hmeets : ∀ {t : Table F p}, levels t.level → t.MeetsOnChains meets) : t.Apart meets := by
  induction h with
  | made hmade _ =>
      rw [eq_empty_of_withBand hmade]
      exact .empty _
  | request supply request hrun _ ih =>
      exact ih.run hrun.sound hequates hkeys hsymm (hmeets hrun.level) supply request

theorem Reachable.keepsTo (h : t.Reachable) : KeepsTo (fun _ => True) t := by
  obtain ⟨journal, hhistory⟩ := h
  induction hhistory with
  | made hmade => exact .made hmade trivial
  | request supply request _ ih => exact .request supply request ih trivial

/-- Keys with one hash never meet unnoticed. -/
theorem Reachable.apart (h : t.Reachable) (hequates : p.hasher.Equates) (hkeys : p.FaithfulKeys) :
    t.Apart (· = ·) := by
  have hmeets {t : Table F p} : t.MeetsOnChains (· = ·) := fun _ heq =>
    congrArg (fun hash : UInt64 => hash.toNat % t.level.buckets) heq
  exact h.keepsTo.apart hequates hkeys (fun heq => heq.symm) fun _ => hmeets

/-- **Entries with one hash** have keys that do not compare as equal. -/
theorem Reachable.distinct_of_hash_eq (h : t.Reachable) (hequates : p.hasher.Equates)
    (hkeys : p.FaithfulKeys) {id other : EntryId} {held held' : Holding KS VS}
    (hheld : t.holding? id = some held) (hheld' : t.holding? other = some held')
    (hne : id ≠ other) (hhash : held.hash = held'.hash) :
    p.hasher.compare (p.keys.view held.key) (p.keys.view held'.key) ≠ .eq :=
  (h.apart hequates hkeys).apart hheld hheld' hne hhash

/-- **Every table is a map** if its hash policy is lawful, also one that was
walked over. -/
theorem Reachable.represents (h : t.Reachable) (hlawful : p.hasher.Lawful)
    (hkeys : p.FaithfulKeys) : ∃ map, Represents hlawful t map := by
  have hlinked := h.sound.wellLinked
  have hhash {id : EntryId} {held : Holding KS VS} (hheld : t.holding? id = some held) :
      held.hash = p.hasher.hash (p.keys.view held.key) := by
    obtain ⟨source, hsource, hcompare⟩ := (h.apart hlawful.equates hkeys).hashed hheld
    rw [hsource, hlawful.hash_eq hcompare]
  have hunique {id other : EntryId} {held held' : Holding KS VS}
      (hheld : t.holding? id = some held) (hheld' : t.holding? other = some held')
      (hclass : hlawful.classOf (p.keys.view held.key) =
        hlawful.classOf (p.keys.view held'.key)) : id = other := by
    have hcompare := hlawful.classOf_eq_iff.mp hclass
    by_contra hne
    refine h.distinct_of_hash_eq hlawful.equates hkeys hheld hheld' hne ?_ hcompare
    rw [hhash hheld, hhash hheld', hlawful.hash_eq hcompare]
  let classes : List (Sigma fun _ : hlawful.Class => Option VS) := t.listing.map fun listed =>
    ⟨hlawful.classOf (p.keys.view listed.2.key), listed.2.value⟩
  have hnodup : classes.NodupKeys := by
    rw [List.nodupKeys_iff_pairwise, List.pairwise_map]
    refine (List.Nodup.of_map _ hlinked.nodup_listing).pairwise_of_forall_ne ?_
    rintro ⟨id, held⟩ hmem ⟨other, held'⟩ hmem' hne hclass
    rw [hlinked.mem_listing_iff] at hmem hmem'
    obtain rfl := hunique hmem hmem' hclass
    exact hne (by rw [Option.some.inj (hmem.symm.trans hmem')])
  refine ⟨classes.toFinmap, h.sound, hhash, fun {id held} hheld => ?_, hunique, fun hmem => ?_⟩
  · rw [Finmap.dlookup_list_toFinmap]
    exact List.mem_dlookup hnodup
      (List.mem_map.mpr ⟨(id, held), hlinked.mem_listing_iff.mpr hheld, rfl⟩)
  · obtain ⟨value, hmem⟩ := (Finmap.mem_list_toFinmap _ classes).mp hmem
    obtain ⟨⟨id, held⟩, hlisted, heq⟩ := List.mem_map.mp hmem
    exact ⟨id, held, hlinked.mem_listing_iff.mp hlisted, congrArg Sigma.fst heq⟩

end Runs

/-! ## chains -/

/-- A key that matches no entry of its chain is not found. -/
theorem contains_eq_false (h : t.Sound) {key : K}
    (hnone : ∀ id ∈ t.chain (t.home key), ¬t.Matches key id) :
    (t.contains key).answer = false := by
  change (t.probe key).found.isSome = false
  cases hfound : (t.probe key).found with
  | none => rfl
  | some found =>
      obtain ⟨front, rest, hlist, -, hmatches, -⟩ := probe_found h.wellLinked hfound
      exact absurd hmatches (hnone _ (by simp [hlist]))

/-- Where the entry that a search has found is gone, and no other was made, the
key is not found any more: another entry like it was on the same chain. -/
theorem Apart.contains_eq_false (h : t.Apart meets) (hsound : t.Sound) (hsound' : t'.Sound)
    (hequates : p.hasher.Equates) (hmeets : t.MeetsOnChains meets)
    (hshare : ∀ {a b : UInt64}, Share t.level a b → meets a b)
    (hshare' : ∀ {a b : UInt64}, Share t'.level a b → meets a b)
    (hkept : ∀ {id : EntryId} {held : Holding KS VS}, t'.holding? id = some held →
      ∃ value, t.holding? id = some { held with value })
    {key : K} {id : EntryId} {entry : Entry KS VS}
    (hfound : (t.probe key).found = some (id, entry)) (hgone : t'.holding? id = none) :
    (t'.contains key).answer = false := by
  obtain ⟨front, rest, hlist, hget, ⟨held, hheld, heq⟩, -⟩ := probe_found hsound.wellLinked hfound
  refine Table.contains_eq_false hsound' fun other hother hmatches => ?_
  obtain ⟨left, hleft, heq'⟩ := hmatches
  obtain ⟨value, hvalue⟩ := hkept hleft
  have hne : id ≠ other := by
    rintro rfl
    simp [hgone] at hleft
  -- Both entries were on the chain of the key, so they share a bucket.
  have hhome := hsound'.wellLinked.home (home_lt hsound'.wellLinked key) hother hleft
  have hmem := h.mem_chain hsound hequates hmeets hvalue heq'
    (hshare' (hsound'.bucketOf_eq_iff.mp hhome))
  have hbucket := hsound.wellLinked.home (home_lt hsound.wellLinked key) hmem hvalue
  have hbucket' := hsound.wellLinked.home (home_lt hsound.wellLinked key)
    (by simp [hlist]) hheld
  exact h.apart hheld hvalue hne
    (hshare (hsound.bucketOf_eq_iff.mp (hbucket'.trans hbucket.symm)))
    (hequates.trans heq (hequates.symm heq'))

theorem Apart.contains_erase [Scale F] (h : t.Apart meets) (hsound : t.Sound)
    (hequates : p.hasher.Equates) (hmeets : t.MeetsOnChains meets)
    (hshare : ∀ {a b : UInt64}, Share t.level a b → meets a b) {supply : Supply ε} {key : K}
    (hshare' : ∀ {a b : UInt64}, Share (t.erase supply key).table.level a b → meets a b) :
    ((t.erase supply key).table.contains key).answer = false := by
  cases hfound : (t.probe key).found with
  | none =>
      have hsame : (t.erase supply key).table = t := by
        unfold erase
        dsimp only
        rw [hfound]
      rw [hsame]
      change (t.probe key).found.isSome = false
      rw [hfound]
      rfl
  | some found =>
      obtain ⟨id, entry⟩ := found
      obtain ⟨hlink, hget⟩ := linked_of_probe_found hfound
      have htable : (t.erase supply key).table =
          ((t.eraseAt (t.probe key).link id entry).table.densityStep supply).table := by
        unfold erase
        dsimp only
        rw [hfound]
        rfl
      have hcut := hsound.unlink hlink hget
      have hheld (other : EntryId) : (t.erase supply key).table.holding? other =
          if id = other then none else t.holding? other := by
        rw [htable]
        exact (hcut.holding?_densityStep supply other).trans (Chains.holding?_unlink _ other)
      refine h.contains_eq_false hsound (htable ▸ hcut.densityStep supply) hequates hmeets hshare
        hshare' (fun {other held} hleft => ?_) hfound ((hheld id).trans (if_pos rfl))
      rw [hheld] at hleft
      split at hleft
      · contradiction
      · exact ⟨held.value, hleft⟩

/-- The keys on a chain are distinct, and a key that was removed is not found. -/
structure KeysDistinct [Scale F] (levels : Level → Prop) (t : Table F p) : Prop where
  chains {bucket : Nat} {id other : EntryId} {held held' : Holding KS VS} : bucket < t.buckets →
    id ∈ t.chain bucket → other ∈ t.chain bucket → id ≠ other →
    t.holding? id = some held → t.holding? other = some held' →
    p.hasher.compare (p.keys.view held.key) (p.keys.view held'.key) ≠ .eq
  erased {supply : Supply ε} {key : K} : levels (t.erase supply key).table.level →
    ((t.erase supply key).table.contains key).answer = false
  taken {supply : Supply ε} {key : K} : levels (t.take supply key).table.level →
    ((t.take supply key).table.contains key).answer = false

/-- **Keys stay distinct** in a run through levels at which the hashes are
coherent, for instance in one without a resize. -/
theorem keysDistinct_of_keepsTo [Scale F] {levels : Level → Prop} (hequates : p.hasher.Equates)
    (hkeys : p.FaithfulKeys) (hcoherent : p.hasher.Coherent levels) (h : KeepsTo levels t) :
    t.KeysDistinct levels := by
  let meets (a b : UInt64) : Prop := ∃ level, levels level ∧ Share level a b
  have hsymm {a b : UInt64} (hmeet : meets a b) : meets b a := by
    obtain ⟨level, hlevel, hshare⟩ := hmeet
    exact ⟨level, hlevel, hshare.symm⟩
  have hmeets {t : Table F p} (hlevel : levels t.level) : t.MeetsOnChains meets := by
    rintro a b heq ⟨other, hother, hshare⟩
    exact hcoherent heq hother hlevel hshare
  have hsound := h.sound
  have hapart := h.apart hequates hkeys hsymm hmeets
  have herased {supply : Supply ε} {key : K} (hlevel : levels (t.erase supply key).table.level) :
      ((t.erase supply key).table.contains key).answer = false :=
    hapart.contains_erase hsound hequates (hmeets h.level) (fun hshare => ⟨_, h.level, hshare⟩)
      fun hshare => ⟨_, hlevel, hshare⟩
  refine ⟨fun hbucket hid hother hne hheld hheld' => ?_, herased, fun hlevel => ?_⟩
  · have hhome := hsound.wellLinked.home hbucket hid hheld
    have hhome' := hsound.wellLinked.home hbucket hother hheld'
    exact hapart.apart hheld hheld' hne
      ⟨_, h.level, hsound.bucketOf_eq_iff.mp (hhome.trans hhome'.symm)⟩
  · rw [table_take] at hlevel ⊢
    exact herased hlevel

/-! ## twins -/

/-- Numbers that are compared by remainders, each its own hash. -/
def remainders : Policies Unit Nat Nat Nat Nat where
  hasher.hash key := UInt64.ofNat key
  hasher.compare stored probe := Ord.compare (stored % 79) (probe % 79)
  keys := .inline
  values := .inline

theorem compare_remainders {a b : Nat} :
    remainders.hasher.compare a b = .eq ↔ a % 79 = b % 79 :=
  Std.LawfulEqOrd.compare_eq_iff_eq

theorem equates_remainders : remainders.hasher.Equates where
  refl _ := compare_remainders.mpr rfl
  symm h := compare_remainders.mpr (compare_remainders.mp h).symm
  trans h h' := compare_remainders.mpr ((compare_remainders.mp h).trans (compare_remainders.mp h'))

theorem faithfulKeys_remainders : remainders.FaithfulKeys := by
  intro copies source stored hstored
  obtain rfl := Except.ok.inj hstored
  exact equates_remainders.refl source

/-- A table with the two keys 0 and 79, which compare as equal. -/
def couple : Table Rat remainders :=
  let requests : List (Supply Unit × Request Rat Unit Nat Nat Nat Unit Unit) :=
    [(plenty, .insert 0 none), (plenty, .insert 79 none)]
  ((Table.empty .default).runAll requests).table

/-- At the bottom level the two keys are on two chains, and each can be erased. -/
theorem keysDistinct_couple :
    KeepsTo (· = Level.bottom) couple ∧ couple.KeysDistinct (· = Level.bottom) := by
  have hmade : KeepsTo (· = Level.bottom) (.empty .default : Table Rat remainders) :=
    .made (show withBand plenty .default = .ok _ from rfl) rfl
  have hfirst := hmade.request (σ := Unit) (ω := Unit) plenty (.insert 0 none) (by decide +kernel)
  have hrun : KeepsTo (· = Level.bottom) couple :=
    hfirst.request (σ := Unit) (ω := Unit) plenty (.insert 79 none) (by decide +kernel)
  exact ⟨hrun, keysDistinct_of_keepsTo equates_remainders faithfulKeys_remainders
    (HashPolicy.coherent_singleton _ _) hrun⟩

/-- The couple and 72 other keys, for which the table grew once. -/
def twins : Table Rat remainders :=
  let requests : List (Supply Unit × Request Rat Unit Nat Nat Nat Unit Unit) :=
    (List.range 72).map fun n => (plenty, .insert (n + 1) none)
  (couple.runAll requests).table

theorem reachable_twins : twins.Reachable :=
  Reachable.runAll (Reachable.runAll
    (reachable_of_withBand (show withBand plenty .default = .ok _ from rfl)) _) _

/-- Growing has brought the couple together on one chain. When one of the two is
erased, and no resize follows, the key is found still. -/
theorem twins_remain :
    remainders.hasher.Equates ∧ remainders.FaithfulKeys ∧ twins.Reachable ∧
      twins.chain 0 = [⟨1⟩, ⟨0⟩] ∧
      (twins.arena.get? ⟨0⟩).map (·.key) = some 0 ∧
      (twins.arena.get? ⟨1⟩).map (·.key) = some 79 ∧
      remainders.hasher.compare 0 79 = .eq ∧
      (twins.erase plenty 0).table.level = twins.level ∧
      ((twins.erase plenty 0).table.contains 0).answer = true := by
  refine ⟨equates_remainders, faithfulKeys_remainders, reachable_twins, ?_⟩
  decide +kernel

end Table

end ChainedTable
