import ChainedTable.Proofs.BulkRemoval
import ChainedTable.Proofs.Notices
import ChainedTable.Proofs.Settling

/-!
# ChainedTable.Proofs.Chronicle

What the log tells of the bucket array.

A density step leaves one record in the table, and at most one line in the log.
`Gauge.Logs` lists the four ways it can go, with the record and the line of each.
Every request is then told by the gauge before it, the gauge after it and the
lines that it wrote (`Request.Logs`):

1. where the size is what it was, and no step was asked for, there is no line and
   no other record;
2. where the size has changed, one step was taken, or after a walk several;
3. after a walk there is one line more exactly if its last step was refused.

So a reader who knows at which level tables start can follow the lines of a whole
run. Each of them fits the one before, and they lead to the level that the table
is at (`Notice.follow`).

That the last of several steps did not resize takes a last step. There is one for
every band that was accepted (`resized_walk_of_accepted`).
-/

namespace ChainedTable

variable {F ε K KS V VS ρ σ ω : Type} {κ : Keeper} {p : Policies ε K KS V VS κ}

/-! ## gauges -/

namespace Gauge

variable [Scale F] {granted : Nat → Bool} {g g' : Gauge F} {lines : List Notice}

/-- What a density step makes of a gauge, and the lines that it logs. -/
inductive Logs (granted : Nat → Bool) (g : Gauge F) : List Notice → Gauge F → Prop where
  /-- The rule names no level. -/
  | steady : g.band.target? g.level g.size = none →
    Logs granted g [] { g with lastStep := .steady }
  /-- It names the level above, and the bucket array is granted. -/
  | grew {target : Level} : g.band.target? g.level g.size = some target →
    g.level.up? = some target → granted target.buckets = true →
    Logs granted g [.rehashed g.size g.level.buckets target.buckets target.val]
      { g with level := target, lastStep := .grew g.level.buckets target.buckets }
  /-- It names the level below, and the bucket array is granted. -/
  | shrank {target : Level} : g.band.target? g.level g.size = some target →
    g.level.down? = some target → granted target.buckets = true →
    Logs granted g [.rehashed g.size g.level.buckets target.buckets target.val]
      { g with level := target, lastStep := .shrank g.level.buckets target.buckets }
  /-- It names a level, and the bucket array is refused. -/
  | abandoned {target : Level} : g.band.target? g.level g.size = some target →
    g.level.down? = some target ∨ g.level.up? = some target → granted target.buckets = false →
    Logs granted g [.abandoned g.level.buckets target.buckets]
      { g with lastStep := .abandoned g.level.buckets target.buckets }

/-- What several density steps do, of which all but the last resize. -/
inductive Settles (granted : Nat → Bool) : Gauge F → List Notice → Gauge F → Prop where
  | last {g g' : Gauge F} {lines : List Notice} : g.Logs granted lines g' →
    Settles granted g lines g'
  | more {g g' g'' : Gauge F} {lines rest : List Notice} : g.Logs granted lines g' →
    g'.lastStep.resized = true → Settles granted g' rest g'' →
    Settles granted g (lines ++ rest) g''

/-- What a request for a key does: nothing, or the size changes and a density
step follows. -/
def KeyLogs (granted : Nat → Bool) (before : Gauge F) (lines : List Notice)
    (after : Gauge F) : Prop :=
  (after = before ∧ lines = []) ∨
    (after.size ≠ before.size ∧ { before with size := after.size }.Logs granted lines after)

/-- The line after a walk that changed the size. -/
def closingLines (g : Gauge F) : List Notice :=
  match g.lastStep with
  | .abandoned before wanted => [.unsettled g.size before wanted]
  | .steady | .grew .. | .shrank .. => []

end Gauge

/-- What a request does to a gauge, and the lines that it logs. -/
def Request.Logs [Scale F] (granted : Nat → Bool) (before : Gauge F) (lines : List Notice)
    (after : Gauge F) : Request F ε K V VS σ ω → Prop
  | insert .. | openSlot .. | take _ | erase _ => before.KeyLogs granted lines after
  | contains _ | lookUp _ => after = before ∧ lines = []
  | clear => after = { before with size := 0 } ∧
      lines = [.cleared before.size before.level.buckets]
  | densityStep => before.Logs granted lines after
  | walk .. => (after = before ∧ lines = []) ∨ (after.size ≠ before.size ∧
      ∃ steps, { before with size := after.size }.Settles granted steps after ∧
        lines = steps ++ after.closingLines)

/-! ## reading the log -/

/-- The level after a line, for someone who knows the level before. There is none
if the line does not fit. -/
def Notice.follow (level : Level) : Notice → Option Level
  | rehashed _ before after number =>
    (Level.ofNat? number).filter fun target =>
      (level.up? = some target ∨ level.down? = some target) ∧
        before = level.buckets ∧ after = target.buckets
  | abandoned before wanted | unsettled _ before wanted =>
    (some level).filter fun _ => before = level.buckets ∧
      (level.up?.map Level.buckets = some wanted ∨ level.down?.map Level.buckets = some wanted)
  | cleared _ buckets => (some level).filter fun _ => buckets = level.buckets
  | freed number => (some level).filter fun _ => number = level.val

/-- The level after some lines. -/
def followAll (level : Level) (lines : List Notice) : Option Level :=
  lines.foldlM Notice.follow level

theorem followAll_append {level next : Level} {lines : List Notice}
    (h : followAll level lines = some next) (rest : List Notice) :
    followAll level (lines ++ rest) = followAll next rest := by
  rw [followAll, List.foldlM_append, show lines.foldlM Notice.follow level = some next from h]
  rfl

theorem followAll_singleton (level : Level) (notice : Notice) :
    followAll level [notice] = notice.follow level := by
  simp [followAll]

namespace Notice

variable {level target : Level}

theorem follow_rehashed (h : level.up? = some target ∨ level.down? = some target) (entries : Nat) :
    (rehashed entries level.buckets target.buckets target.val).follow level = some target := by
  have hnumber : Level.ofNat? target.val = some target := by
    rw [Level.ofNat?, dif_pos target.isLt]
  simp [follow, hnumber, h]

theorem follow_abandoned (h : level.down? = some target ∨ level.up? = some target) :
    (abandoned level.buckets target.buckets).follow level = some level := by
  rcases h with h | h <;> simp [follow, h]

theorem follow_unsettled (h : level.down? = some target ∨ level.up? = some target)
    (entries : Nat) :
    (unsettled entries level.buckets target.buckets).follow level = some level := by
  rcases h with h | h <;> simp [follow, h]

end Notice

namespace Gauge

variable [Scale F] {granted : Nat → Bool} {g g' : Gauge F} {lines : List Notice}

/-- The line of a step leads from the level before it to the level after it. -/
theorem Logs.followAll_eq (h : g.Logs granted lines g') :
    followAll g.level lines = some g'.level := by
  cases h with
  | steady => rfl
  | grew _ hup _ => exact (followAll_singleton ..).trans (Notice.follow_rehashed (.inl hup) _)
  | shrank _ hdown _ => exact (followAll_singleton ..).trans (Notice.follow_rehashed (.inr hdown) _)
  | abandoned _ hnext _ => exact (followAll_singleton ..).trans (Notice.follow_abandoned hnext)

theorem Settles.followAll_eq (h : g.Settles granted lines g') :
    followAll g.level lines = some g'.level := by
  induction h with
  | last hlogs => exact hlogs.followAll_eq
  | more hlogs _ _ ih => rw [followAll_append hlogs.followAll_eq, ih]

/-- The closing line fits the level that the last step left. -/
theorem Settles.followAll_closingLines (h : g.Settles granted lines g') :
    followAll g'.level g'.closingLines = some g'.level := by
  induction h with
  | last hlogs =>
      cases hlogs with
      | steady | grew | shrank => rfl
      | abandoned _ hnext _ =>
          exact (followAll_singleton ..).trans (Notice.follow_unsettled hnext _)
  | more _ _ _ ih => exact ih

end Gauge

/-- **The lines of a request** lead from the level before it to the level after
it. -/
theorem Request.Logs.followAll_eq [Scale F] {granted : Nat → Bool} {before after : Gauge F}
    {lines : List Notice} {request : Request F ε K V VS σ ω}
    (h : request.Logs granted before lines after) :
    followAll before.level lines = some after.level := by
  cases request with
  | insert | openSlot | take | erase =>
      obtain ⟨rfl, rfl⟩ | ⟨-, hlogs⟩ := h
      · rfl
      · exact hlogs.followAll_eq
  | contains | lookUp =>
      obtain ⟨rfl, rfl⟩ := h
      rfl
  | clear =>
      obtain ⟨rfl, rfl⟩ := h
      simp [followAll_singleton, Notice.follow]
  | densityStep => exact Gauge.Logs.followAll_eq h
  | walk =>
      obtain ⟨rfl, rfl⟩ | ⟨-, steps, hsettles, rfl⟩ := h
      · rfl
      · rw [followAll_append hsettles.followAll_eq, hsettles.followAll_closingLines]

/-! ## tables -/

namespace Table

variable [Scale F] {t t' : Table F p} {supply : Supply ε}

/-- Steps answer what the last of them records. -/
theorem answer_restoreBandWithin (supply : Supply ε) (bound : Nat) (t : Table F p) :
    (restoreBandWithin supply bound t).answer =
      (restoreBandWithin supply bound t).table.lastStep := by
  induction bound generalizing t with
  | zero => rfl
  | succ bound ih =>
      unfold restoreBandWithin
      dsimp only
      split
      · exact ih _
      · exact (lastStep_densityStep t supply).symm

namespace Sound

/-- **A density step** logs what it does. -/
theorem logs_densityStep (h : t.Sound) (supply : Supply ε) :
    t.gauge.Logs supply.buckets (noticesIn (t.densityStep supply).journal)
      (t.densityStep supply).table.gauge := by
  -- The lines give counts of buckets, and those are the counts of the levels.
  have hbuckets : t.buckets = t.gauge.level.buckets := h.buckets
  have hstep := t.stepsTo_densityStep supply
  have hsize (target : Level) : (t.toChains.rehash target.buckets).size = t.gauge.size :=
    (Chains.sameRoom_rehash t.toChains target.buckets).size_eq
  generalize t.densityStep supply = outcome at hstep ⊢
  cases hstep with
  | steady htarget => exact .steady htarget
  | abandoned htarget hrefused =>
      simp only [recorded, noticesIn_noticed, noticesIn_nil, hbuckets]
      exact .abandoned htarget (DensityBand.down?_or_up?_of_target? htarget) hrefused
  | @grew target htarget hup hgranted =>
      simp only [moved, gauge, noticesIn_noticed, noticesIn_nil, hbuckets, hsize]
      exact .grew htarget hup hgranted
  | @shrank target htarget hdown hgranted =>
      simp only [moved, gauge, noticesIn_noticed, noticesIn_nil, hbuckets, hsize]
      exact .shrank htarget hdown hgranted

/-- Steps within a bound log each step that they take. There is one at least. -/
theorem settles_restoreBandWithin (h : t.Sound) (supply : Supply ε) (bound : Nat) :
    t.gauge.Settles supply.buckets (noticesIn (restoreBandWithin supply (bound + 1) t).journal)
      (restoreBandWithin supply (bound + 1) t).table.gauge := by
  induction bound generalizing t with
  | zero =>
      have hlogs := h.logs_densityStep supply
      unfold restoreBandWithin
      dsimp only
      split
      · simpa [restoreBandWithin] using Gauge.Settles.last hlogs
      · exact .last hlogs
  | succ bound ih =>
      have hlogs := h.logs_densityStep supply
      unfold restoreBandWithin
      dsimp only
      split
      · next hresized =>
          rw [← lastStep_densityStep] at hresized
          rw [Outcome.journal_after, noticesIn_append]
          exact .more hlogs hresized (ih (h.densityStep supply))
      · exact .last hlogs

/-- **Bringing the density back** logs every step, and then that it was in vain, if
the last step was. -/
theorem settles_restoreBand (h : t.Sound) (supply : Supply ε) : ∃ steps,
    t.gauge.Settles supply.buckets steps (t.restoreBand supply).table.gauge ∧
      noticesIn (t.restoreBand supply).journal =
        steps ++ (t.restoreBand supply).table.gauge.closingLines := by
  have hsettles : t.gauge.Settles supply.buckets
      (noticesIn (restoreBandWithin supply levelCount t).journal)
      (restoreBandWithin supply levelCount t).table.gauge := h.settles_restoreBandWithin supply 36
  have hanswer : (restoreBandWithin supply levelCount t).answer =
      (restoreBandWithin supply levelCount t).table.gauge.lastStep :=
    answer_restoreBandWithin supply levelCount t
  refine ⟨_, by rwa [table_restoreBand], ?_⟩
  rw [table_restoreBand]
  unfold restoreBand Gauge.closingLines
  dsimp only
  rw [hanswer]
  cases (restoreBandWithin supply levelCount t).table.gauge.lastStep with
  | steady | grew | shrank => simp
  | abandoned before wanted => simp [gauge]

/-! ## requests -/

/-- A step after an edit that only changed the size. -/
theorem keyLogs_densityStep (h : t'.Sound) (supply : Supply ε)
    (hgauge : t'.gauge = { t.gauge with size := t'.size }) (hsize : t'.size ≠ t.size) :
    t.gauge.KeyLogs supply.buckets (noticesIn (t'.densityStep supply).journal)
      (t'.densityStep supply).table.gauge := by
  have hlogs := h.logs_densityStep supply
  have hafter : (t'.densityStep supply).table.gauge.size = t'.size := t'.size_densityStep supply
  refine .inr ⟨?_, ?_⟩
  · rw [hafter]
    exact hsize
  · rw [hafter, ← hgauge]
    exact hlogs

theorem keyLogs_insertNew (h : t.Sound) (supply : Supply ε) {key : K} (value : Option V)
    (hfound : (t.probe key).found = none) :
    t.gauge.KeyLogs supply.buckets
      (noticesIn (t.insertNew supply (t.probe key) key value).journal)
      (t.insertNew supply (t.probe key) key value).table.gauge := by
  have hadmission := admission_insertNew t supply key value
  generalize t.insertNew supply (t.probe key) key value = outcome at hadmission ⊢
  cases hadmission with
  | noRoom => exact .inl ⟨rfl, rfl⟩
  | keyRefused hroom _ | valueRefused hroom _ _ _ =>
      exact .inl ⟨Gauge.ext (h.size_reserve hroom) rfl rfl rfl, rfl⟩
  | @admitted arena storedKey storedValue hroom _ _ =>
      have hsize := h.size_linkNew hroom hfound storedKey storedValue
      have hlogs := keyLogs_densityStep (t := t) (h.linkNew hroom hfound storedKey storedValue)
        supply rfl (by omega)
      simpa using hlogs

theorem keyLogs_insert (h : t.Sound) (supply : Supply ε) (key : K) (value : Option V) :
    t.gauge.KeyLogs supply.buckets (noticesIn (t.insert supply key value).journal)
      (t.insert supply key value).table.gauge := by
  unfold insert
  dsimp only
  split
  · next id entry _ =>
      have hcalls : noticesIn (p.acquireValue supply.copies value).2 = [] :=
        noticesIn_acquireValue ..
      split
      · next why calls hvalue =>
          rw [hvalue] at hcalls
          exact .inl ⟨rfl, by simpa using hcalls⟩
      · next fresh calls hvalue =>
          rw [hvalue] at hcalls
          exact .inl ⟨Gauge.ext (t.size_setValue id fresh) rfl rfl rfl, by simpa using hcalls⟩
  · next hfound => simpa using h.keyLogs_insertNew supply value hfound

theorem keyLogs_openSlotAnd (h : t.Sound) (supply : Supply ε) (key : K)
    (actions : List (ε × SlotAction V VS)) :
    t.gauge.KeyLogs supply.buckets (noticesIn (t.openSlotAnd supply key actions).journal)
      (t.openSlotAnd supply key actions).table.gauge := by
  have hopen : t.gauge.KeyLogs supply.buckets (noticesIn (t.openSlot supply key).journal)
      (t.openSlot supply key).table.gauge := by
    rw [openSlot_eq]
    dsimp only
    split
    · next id entry _ =>
        exact .inl ⟨Gauge.ext (t.size_setValue id none) rfl rfl rfl, by simp⟩
    · next hfound => simpa using h.keyLogs_insertNew supply none hfound
  unfold openSlotAnd
  dsimp only
  split
  · exact hopen
  · next id _ =>
      have hgauge : ((t.openSlot supply key).table.onSlots id actions).table.gauge =
          (t.openSlot supply key).table.gauge := by
        rw [gauge_trims (trims_onSlots _ id actions), size_onSlots]
        rfl
      simpa [hgauge] using hopen

theorem keyLogs_erase (h : t.Sound) (supply : Supply ε) (key : K) :
    t.gauge.KeyLogs supply.buckets (noticesIn (t.erase supply key).journal)
      (t.erase supply key).table.gauge := by
  unfold erase
  dsimp only
  split
  · exact .inl ⟨rfl, by simp⟩
  · next id entry hfound =>
      obtain ⟨hlink, hget⟩ := linked_of_probe_found hfound
      have hsize := h.size_unlink hlink hget
      have hlogs := keyLogs_densityStep (t := t) (h.unlink hlink hget) supply rfl
        (by dsimp only; omega)
      simpa [eraseAt] using hlogs

theorem keyLogs_take (h : t.Sound) (supply : Supply ε) (key : K) :
    t.gauge.KeyLogs supply.buckets (noticesIn (t.take supply key).journal)
      (t.take supply key).table.gauge := by
  have hnotices : noticesIn (t.take supply key).journal =
      noticesIn (t.erase supply key).journal := by
    unfold take erase
    dsimp only
    split
    · rfl
    · simp [takeAt, eraseAt]
  rw [hnotices, table_take]
  exact h.keyLogs_erase supply key

theorem logs_walk (h : t.Sound) (supply : Supply ε) (memory : σ)
    (visitor : Visitor F ε K V VS σ ω) : (Request.walk memory visitor).Logs supply.buckets t.gauge
      (noticesIn (t.walk supply memory visitor).journal)
      (t.walk supply memory visitor).table.gauge := by
  -- Under the walk there is no notice, and the gauge changes in its size only.
  have hquiet := Walk.noticesIn_run visitor t memory
  have hgauge := gauge_trims (t.trims_walk memory visitor)
  have hsound := h.run_start memory visitor
  unfold Table.walk
  dsimp only
  generalize ((Walk.start t memory).run visitor).1 = w at hquiet hgauge hsound ⊢
  split
  · next hsame =>
      rw [hsame] at hgauge
      exact .inl ⟨hgauge, hquiet⟩
  · next hne =>
      obtain ⟨steps, hsettles, hlines⟩ := hsound.settles_restoreBand supply
      have hsize : (w.table.restoreBand supply).table.gauge.size = w.table.size := by
        rw [hsound.gauge_restoreBand, Gauge.size_settle]
        rfl
      refine .inr ⟨hsize ▸ hne, steps, ?_, ?_⟩
      · rw [Outcome.table_after, Outcome.table_map, hsize, ← hgauge]
        exact hsettles
      · rw [Outcome.journal_after, noticesIn_append, hquiet]
        exact hlines

/-- **A request logs** what it does to the bucket array, and nothing else does
anything to it. -/
theorem logs_run (h : t.Sound) (supply : Supply ε) (request : Request F ε K V VS σ ω) :
    request.Logs supply.buckets t.gauge (noticesIn (request.run supply t).journal)
      (request.run supply t).table.gauge := by
  cases request with
  | insert key value => exact h.keyLogs_insert supply key value
  | openSlot key actions => exact h.keyLogs_openSlotAnd supply key actions
  | contains key | lookUp key => exact ⟨rfl, noticesIn_probe t key⟩
  | take key => exact h.keyLogs_take supply key
  | erase key => exact h.keyLogs_erase supply key
  | clear =>
      refine ⟨Gauge.ext h.size_clear rfl rfl rfl, ?_⟩
      rw [← show t.buckets = t.gauge.level.buckets from h.buckets]
      exact noticesIn_clear t
  | densityStep => exact h.logs_densityStep supply
  | walk memory visitor => exact h.logs_walk supply memory visitor

end Sound

/-- After a walk that changed the size, the last step did not resize, if there was
a last step at all. -/
theorem resized_walk_of_dom (memory : σ) (visitor : Visitor F ε K V VS σ ω)
    (hsize : (t.walk supply memory visitor).table.size ≠ t.size)
    (hdom : (((Walk.start t memory).run visitor).1.table.restoring fun _ => supply).Dom) :
    (t.walk supply memory visitor).table.lastStep.resized = false := by
  unfold Table.walk at hsize ⊢
  dsimp only at hsize ⊢
  split at hsize
  · next hsame => exact absurd hsame hsize
  · next hne =>
      rw [if_neg hne]
      exact resized_restoreBand_of_dom hdom

/-- With a band that was accepted there always is a last step. -/
theorem resized_walk_of_accepted {band : DensityBand Rat} (hband : band.Accepted)
    (hdecides : t.band.DecidesAs band) (memory : σ) (visitor : Visitor F ε K V VS σ ω)
    (hsize : (t.walk supply memory visitor).table.size ≠ t.size) :
    (t.walk supply memory visitor).table.lastStep.resized = false := by
  refine resized_walk_of_dom memory visitor hsize (dom_restoring_of_accepted hband ?_ _)
  rwa [(t.trims_walk memory visitor).band]

/-! ## runs -/

theorem History.runAll {journal : List (Event K KS V VS)} (h : History t journal)
    (requests : List (Supply ε × Request F ε K V VS σ ω)) :
    History (t.runAll requests).table (journal ++ (t.runAll requests).journal) := by
  induction requests generalizing t journal with
  | nil => rwa [runAll, List.append_nil]
  | cons first rest ih =>
      have hrest := ih (h.request first.1 first.2)
      rwa [List.append_assoc] at hrest

/-- A run of requests on a new table is all that happened to it. -/
theorem history_of_withBand {supply : Supply ε} {band : DensityBand F}
    (hmade : withBand supply band = .ok t) (requests : List (Supply ε × Request F ε K V VS σ ω)) :
    History (t.runAll requests).table (t.runAll requests).journal := by
  have hhistory := (History.made hmade).runAll requests
  rwa [List.nil_append] at hhistory

/-- What the log tells of a table and of the run that made it. -/
structure Chronicled (t : Table F p) (journal : List (Event K KS V VS)) : Prop where
  /-- The number of buckets is that of the level. -/
  buckets : t.buckets = t.level.buckets
  /-- Whoever follows the lines from the bottom level on comes to this level. -/
  followed : followAll .bottom (noticesIn journal) = some t.level
  /-- Whatever is requested next, and whatever is refused, the lines tell it. -/
  logs {σ ω : Type} (supply : Supply ε) (request : Request F ε K V VS σ ω) :
    request.Logs supply.buckets t.gauge (noticesIn (request.run supply t).journal)
      (request.run supply t).table.gauge
  /-- After a walk that changed the size the last step was steady or refused, if
  the steps come to an end. -/
  settled {σ ω : Type} (supply : Supply ε) (memory : σ) (visitor : Visitor F ε K V VS σ ω) :
    (t.walk supply memory visitor).table.size ≠ t.size →
    (((Walk.start t memory).run visitor).1.table.restoring fun _ => supply).Dom →
    (t.walk supply memory visitor).table.lastStep.resized = false
  /-- They do come to an end with every band that was accepted, as far as densities are
  exact enough to decide on the steps. -/
  settled_of_accepted {σ ω : Type} {band : DensityBand Rat} (supply : Supply ε) (memory : σ)
    (visitor : Visitor F ε K V VS σ ω) : band.Accepted → t.band.DecidesAs band →
    (t.walk supply memory visitor).table.size ≠ t.size →
    (t.walk supply memory visitor).table.lastStep.resized = false
  /-- The lines of a table that is given up fit as well. -/
  freed : followAll .bottom (noticesIn (journal ++ t.free)) = some t.level

theorem History.followed {journal : List (Event K KS V VS)} (h : History t journal) :
    followAll .bottom (noticesIn journal) = some t.level := by
  induction h with
  | made hmade =>
      rw [eq_empty_of_withBand hmade]
      rfl
  | request supply request hbefore ih =>
      rw [noticesIn_append, followAll_append ih]
      exact (hbefore.sound.logs_run supply request).followAll_eq

omit [Scale F] in
theorem Sound.followAll_free (h : t.Sound) :
    followAll t.level (noticesIn t.free) = some t.level := by
  have hbuckets : t.buckets = t.level.buckets := h.buckets
  have hbuckets' : t.clear.table.buckets = t.level.buckets := h.clear.buckets
  rw [free, dispose, noticesIn_append, noticesIn_noticed, noticesIn_clear, noticesIn_clear,
    hbuckets, hbuckets']
  simp [followAll, Notice.follow, Option.filter_some]

/-- **The log is a faithful journal** of the bucket array, in every run. -/
theorem chronicled_of_history {journal : List (Event K KS V VS)} (h : History t journal) :
    t.Chronicled journal where
  buckets := h.sound.buckets
  followed := h.followed
  logs := h.sound.logs_run
  settled _ memory visitor := resized_walk_of_dom memory visitor
  settled_of_accepted _ memory visitor hband hdecides :=
    resized_walk_of_accepted hband hdecides memory visitor
  freed := by
    rw [noticesIn_append, followAll_append h.followed]
    exact h.sound.followAll_free

/-- Surroundings that grant no bucket array. -/
def scarce : Supply Unit := { plenty with buckets := fun _ => false }

/-- A table that grew and was cleared, when no more bucket arrays were to be had. A
key comes, and goes in a walk, and the table stays as large as it is until the next
density step. -/
theorem chronicled_scarce :
    let requests : List (Supply Unit × Request Rat Unit Nat Nat Nat Unit Unit) :=
      (List.range 37).map (fun key => (plenty, .insert key none)) ++
        [(scarce, .clear), (scarce, .insert 0 none), (scarce, .walk () (erasing [0])),
          (plenty, .densityStep)]
    let run := (Table.empty ⟨1 / 4, 1⟩ : Table Rat spread).runAll requests
    History run.table run.journal ∧ run.table.Chronicled run.journal ∧
      noticesIn run.journal = [.rehashed 37 37 79 1, .cleared 37 79, .abandoned 79 37,
        .abandoned 79 37, .unsettled 0 79 37, .rehashed 0 79 37 0] := by
  intro requests run
  have hhistory : History run.table run.journal :=
    history_of_withBand (show withBand plenty ⟨(1 / 4 : Rat), 1⟩ = .ok _ from rfl) requests
  exact ⟨hhistory, chronicled_of_history hhistory, by decide +kernel⟩

end Table

end ChainedTable
