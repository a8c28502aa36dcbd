import Citor.Scan.LookbackInvariant

/-!
# Every step of a tiled scan keeps the invariant

A step either works on the tile its slot holds, or finishes it, or claims a
new one.  The other tiles and their holders do not notice.
-/

namespace Citor.Lookback

open Citor.Interleaving
open Citor.IntervalFold
open Citor.DoneSlots

variable {T : Type*}

section Frames

variable {job : Job T} {before after : State T} {slot tile : ℕ} {pc : Pc T}

/-- The step of `slot` moves it to `pc` and stores into `tile` only. -/
structure Touches (job : Job T) (before after : State T) (slot : ℕ) (pc : Pc T)
    (tile : ℕ) : Prop where
  pc : after.pc = Function.update before.pc slot pc
  next : after.clusterNextTile = before.clusterNextTile
  flag : ∀ other ≠ tile, after.flag other = before.flag other
  out : ∀ index, ¬ job.shape.InTile tile index →
    after.out index = before.out index
  aggregate : ∀ other ≠ tile, after.aggregate other = before.aggregate other
  tilePrefix : ∀ other ≠ tile,
    after.tilePrefix other = before.tilePrefix other
  firstException : after.firstException = before.firstException
  outcome : after.outcome = before.outcome

theorem Touches.out_of_other (htouches : Touches job before after slot pc tile)
    {other index : ℕ} (hother : other ≠ tile)
    (hindex : job.shape.InTile other index) :
    after.out index = before.out index := by
  apply htouches.out
  intro hmine
  exact hother (hindex.unique hmine)

theorem Touches.untouched (htouches : Touches job before after slot pc tile)
    {other index : ℕ} (hother : other ≠ tile)
    (hindex : job.shape.InTile other index)
    (huntouched : Untouched job before index) :
    Untouched job after index := by
  unfold Untouched State.readInput at *
  rwa [htouches.out_of_other hother hindex]

theorem Touches.local (htouches : Touches job before after slot pc tile)
    {other : ℕ} (hother : other ≠ tile) (hlocal : Local job before other) :
    Local job after other := by
  intro index hindex
  rw [htouches.out_of_other hother hindex]
  exact hlocal index hindex

theorem Touches.finished (htouches : Touches job before after slot pc tile)
    {other : ℕ} (hother : other ≠ tile)
    (hfinished : Finished job before other) : Finished job after other := by
  refine ⟨(htouches.flag other hother).trans hfinished.1, ?_⟩
  intro index hindex
  rw [htouches.out_of_other hother hindex]
  exact hfinished.2 index hindex

/-- The holder of another tile does not notice. -/
theorem Touches.pcOk (htouches : Touches job before after slot pc tile)
    {held : Pc T} (hother : held.tile ≠ some tile)
    (hok : PcOk job before held) : PcOk job after held := by
  have hne : ∀ other, held.tile = some other → other ≠ tile := by
    rintro other hheld rfl
    exact hother hheld
  cases held with
  | loadFailed other =>
      have hother := hne other rfl
      refine ⟨(htouches.flag other hother).trans hok.1, ?_⟩
      intro index hindex
      exact htouches.untouched hother hindex (hok.2 index hindex)
  | pass1 other index localTotal =>
      have hother := hne other rfl
      obtain ⟨hflag, hlo, hhi, htotal, hdone, hrest⟩ := hok
      refine ⟨(htouches.flag other hother).trans hflag, hlo, hhi, htotal,
        ?_, ?_⟩
      · intro peer hpeer hless
        rw [htouches.out_of_other hother hpeer]
        exact hdone peer hpeer hless
      · intro peer hpeer hmore
        exact htouches.untouched hother hpeer (hrest peer hpeer hmore)
  | publishAggregate other localTotal =>
      have hother := hne other rfl
      exact ⟨(htouches.flag other hother).trans hok.1, hok.2.1,
        htouches.local hother hok.2.2⟩
  | walk other cursor accum =>
      have hother := hne other rfl
      obtain ⟨hflag, hzero, hpos, hcursor, haccum, hlocal⟩ := hok
      exact ⟨(htouches.flag other hother).trans hflag, hzero, hpos, hcursor,
        haccum, htouches.local hother hlocal⟩
  | stitch other peer leftCombined accum =>
      have hother := hne other rfl
      obtain ⟨hflag, hzero, hpeer, hleft, haccum, hlocal⟩ := hok
      exact ⟨(htouches.flag other hother).trans hflag, hzero, hpeer, hleft,
        haccum, htouches.local hother hlocal⟩
  | publishPrefix other myPrefix =>
      have hother := hne other rfl
      exact ⟨(htouches.flag other hother).trans hok.1, hok.2.1,
        htouches.local hother hok.2.2⟩
  | pass2 other index myPrefix =>
      have hother := hne other rfl
      obtain ⟨hflag, hzero, hvalue, hlo, hhi, hdone, hrest⟩ := hok
      refine ⟨(htouches.flag other hother).trans hflag, hzero, hvalue, hlo,
        hhi, ?_, ?_⟩
      · intro peer hpeer hless
        rw [htouches.out_of_other hother hpeer]
        exact hdone peer hpeer hless
      · intro peer hpeer hmore
        rw [htouches.out_of_other hother hpeer]
        exact hrest peer hpeer hmore
  | _ => exact hok

theorem Touches.claimed_iff (htouches : Touches job before after slot pc tile)
    {other : ℕ} : Claimed job after other ↔ Claimed job before other := by
  unfold Claimed
  rw [htouches.next]

theorem not_allLeft (hslot : slot < job.shape.participants)
    (hrunning : (before.pc slot).hasLeft = false) :
    before.allLeft job = false := by
  simp only [State.allLeft, List.all_eq_false, List.mem_range]
  exact ⟨slot, hslot, by simp [hrunning]⟩

theorem Books.claimed_of_held {trace : List Event}
    (hbooks : Books job trace before) (hslot : slot < job.shape.participants)
    (hheld : (before.pc slot).tile = some tile) : Claimed job before tile := by
  obtain ⟨howns, hless⟩ := hbooks.held slot hslot tile hheld
  exact ⟨_, job.shape.clusters.id_lt slot hslot, howns, hless⟩

theorem hasLeft_of_tile (hheld : pc.tile = some tile) :
    pc.hasLeft = false := by
  cases pc <;> simp_all [Pc.tile, Pc.hasLeft]

end Frames

/-! ## Working on a held tile -/

section Working

variable {job : Job T} {trace : List Event} {before after : State T}
variable {slot tile : ℕ} {pc : Pc T}

theorem Touches.tile_of_ne (htouches : Touches job before after slot pc tile)
    {other : ℕ} (hother : other ≠ slot) :
    (after.pc other).tile = (before.pc other).tile := by
  simp [htouches.pc, hother]

theorem Touches.tile_self (htouches : Touches job before after slot pc tile) :
    (after.pc slot).tile = pc.tile := by
  simp [htouches.pc]

theorem Books.work (hbooks : Books job trace before)
    (hslot : slot < job.shape.participants)
    (hheld : (before.pc slot).tile = some tile)
    (htouches : Touches job before after slot pc tile)
    (hkeeps : pc.tile = some tile) : Books job trace after := by
  have hsame : ∀ other, (after.pc other).tile = (before.pc other).tile := by
    intro other
    by_cases hself : other = slot
    · rw [hself, htouches.tile_self, hkeeps, hheld]
    · exact htouches.tile_of_ne hself
  constructor
  · intro other hother held hholds
    rw [hsame] at hholds
    rw [htouches.next]
    exact hbooks.held other hother held hholds
  · intro left hleft right hright held hholdsLeft hholdsRight
    rw [hsame] at hholdsLeft hholdsRight
    exact hbooks.unique left hleft right hright held hholdsLeft hholdsRight
  · rw [htouches.next]
    exact hbooks.started
  · intro other hother hleft
    rw [htouches.next]
    refine hbooks.drained other hother ?_
    by_cases hself : other = slot
    · subst hself
      simp [htouches.pc, hasLeft_of_tile hkeeps] at hleft
    · simpa [htouches.pc, hself] using hleft
  · intro other hfresh
    exact hbooks.fresh other (by rwa [← htouches.claimed_iff])
  · intro other hother held hholds
    rw [hsame] at hholds
    exact hbooks.working other hother held hholds
  · intro other hclaimed hnobody
    refine hbooks.finished other (htouches.claimed_iff.mp hclaimed) ?_
    intro peer hpeer
    rw [← hsame]
    exact hnobody peer hpeer

/-- The values of the other tiles stay; what the step owes is about its own
tile. -/
theorem Values.touch (hvalues : Values job before)
    (hbooks : Books job trace before)
    (hslot : slot < job.shape.participants)
    (hheld : (before.pc slot).tile = some tile)
    (htouches : Touches job before after slot pc tile)
    (hok : PcOk job after pc)
    (hdone : pc.tile = some tile ∨ Finished job after tile)
    (haggregate : after.flag tile ≠ .initialized →
      after.aggregate tile = job.aggregateOf tile)
    (hprefix' : after.flag tile = .prefixAvailable →
      after.tilePrefix tile = job.prefixOf tile) : Values job after where
  slots := by
    intro other hother
    by_cases hself : other = slot
    · subst hself
      simpa [htouches.pc] using hok
    · have hforeign : (before.pc other).tile ≠ some tile := fun hholds =>
        hself (hbooks.unique other hother slot hslot tile hholds hheld)
      simpa [htouches.pc, hself] using
        htouches.pcOk hforeign (hvalues.slots other hother)
  fresh := by
    intro other hbound hfresh
    rw [htouches.claimed_iff] at hfresh
    have hne : other ≠ tile := by
      rintro rfl
      exact hfresh (hbooks.claimed_of_held hslot hheld)
    obtain ⟨hflag, huntouched⟩ := hvalues.fresh other hbound hfresh
    refine ⟨(htouches.flag other hne).trans hflag, ?_⟩
    intro index hindex
    exact htouches.untouched hne hindex (huntouched index hindex)
  finished := by
    intro other hclaimed hnobody
    by_cases hmine : other = tile
    · subst hmine
      refine hdone.resolve_left fun hkeeps => ?_
      exact hnobody slot hslot (by rw [htouches.tile_self, hkeeps])
    · refine htouches.finished hmine (hvalues.finished other
        (htouches.claimed_iff.mp hclaimed) fun peer hpeer hholds => ?_)
      by_cases hself : peer = slot
      · subst hself
        rw [hheld, Option.some.injEq] at hholds
        exact hmine hholds.symm
      · exact hnobody peer hpeer (by rw [htouches.tile_of_ne hself, hholds])
  aggregates := by
    intro other hflag
    by_cases hmine : other = tile
    · subst hmine
      exact haggregate hflag
    · rw [htouches.flag other hmine] at hflag
      rw [htouches.aggregate other hmine]
      exact hvalues.aggregates other hflag
  prefixes := by
    intro other hflag
    by_cases hmine : other = tile
    · subst hmine
      exact hprefix' hflag
    · rw [htouches.flag other hmine] at hflag
      rw [htouches.tilePrefix other hmine]
      exact hvalues.prefixes other hflag

/-- A step that goes on with the tile. -/
theorem TiledInv.work (hinv : TiledInv job trace before)
    (hslot : slot < job.shape.participants)
    (hheld : (before.pc slot).tile = some tile)
    (htouches : Touches job before after slot pc tile)
    (hkeeps : pc.tile = some tile) (hok : PcOk job after pc)
    (haggregate : after.flag tile ≠ .initialized →
      after.aggregate tile = job.aggregateOf tile)
    (hprefix' : after.flag tile = .prefixAvailable →
      after.tilePrefix tile = job.prefixOf tile) :
    TiledInv job (trace ++ (none : Option Event).toList) after where
  books := by
    simpa using hinv.books.work hslot hheld htouches hkeeps
  values := hinv.values.touch hinv.books hslot hheld htouches hok
    (.inl hkeeps) haggregate hprefix'
  calm := htouches.firstException.trans hinv.calm
  quiet := by simpa using hinv.quiet
  outcome := by
    intro outcome hsome
    rw [htouches.outcome] at hsome
    have hall := (hinv.outcome outcome hsome).1
    simp [not_allLeft hslot (hasLeft_of_tile hheld)] at hall

theorem filter_tile_append (event : Event) (other : ℕ) :
    (trace ++ (some event).toList).filter
        (fun event => event.tile = some other) =
      trace.filter (fun event => event.tile = some other) ++
        (if event.tile = some other then [event] else []) := by
  by_cases hsame : event.tile = some other <;> simp [hsame]

/-- A step that leaves the tile behind. -/
theorem TiledInv.finish (hinv : TiledInv job trace before)
    (hslot : slot < job.shape.participants)
    (hheld : (before.pc slot).tile = some tile)
    (htouches : Touches job before after slot .claim tile)
    (hfinished : Finished job after tile)
    (haggregate : after.flag tile ≠ .initialized →
      after.aggregate tile = job.aggregateOf tile)
    (hprefix' : after.flag tile = .prefixAvailable →
      after.tilePrefix tile = job.prefixOf tile) :
    TiledInv job (trace ++ (some (Event.wrote slot tile)).toList) after := by
  have hworking := hinv.books.working slot hslot tile hheld
  have hfilter : ∀ other, other ≠ tile →
      (trace ++ (some (Event.wrote slot tile)).toList).filter
          (fun event => event.tile = some other) =
        trace.filter (fun event => event.tile = some other) := by
    intro other hother
    rw [filter_tile_append, if_neg (by simpa [Event.tile] using hother.symm),
      List.append_nil]
  have hholds : ∀ other, ∀ held, (after.pc other).tile = some held →
      other ≠ slot ∧ (before.pc other).tile = some held := by
    intro other held hheldAfter
    by_cases hself : other = slot
    · subst hself
      rw [htouches.tile_self] at hheldAfter
      simp [Pc.tile] at hheldAfter
    · exact ⟨hself, by rwa [htouches.tile_of_ne hself] at hheldAfter⟩
  constructor
  · constructor
    · intro other hother held hheldAfter
      rw [htouches.next]
      exact hinv.books.held other hother held (hholds other held hheldAfter).2
    · intro left hleft right hright held hleftHolds hrightHolds
      exact hinv.books.unique left hleft right hright held
        (hholds left held hleftHolds).2 (hholds right held hrightHolds).2
    · rw [htouches.next]
      exact hinv.books.started
    · intro other hother hleft
      rw [htouches.next]
      refine hinv.books.drained other hother ?_
      by_cases hself : other = slot
      · subst hself
        simp [htouches.pc, Pc.hasLeft] at hleft
      · simpa [htouches.pc, hself] using hleft
    · intro other hfresh
      rw [htouches.claimed_iff] at hfresh
      have hne : other ≠ tile := by
        rintro rfl
        exact hfresh (hinv.books.claimed_of_held hslot hheld)
      rw [hfilter other hne]
      exact hinv.books.fresh other hfresh
    · intro other hother held hheldAfter
      obtain ⟨hself, hbefore⟩ := hholds other held hheldAfter
      have hne : held ≠ tile := by
        rintro rfl
        exact hself (hinv.books.unique other hother slot hslot held hbefore hheld)
      rw [hfilter held hne]
      exact hinv.books.working other hother held hbefore
    · intro other hclaimed hnobody
      by_cases hmine : other = tile
      · subst hmine
        refine ⟨slot, hslot, ?_⟩
        rw [filter_tile_append, hworking]
        simp [Event.tile]
      · rw [hfilter other hmine]
        refine hinv.books.finished other (htouches.claimed_iff.mp hclaimed) ?_
        intro peer hpeer hbefore
        by_cases hself : peer = slot
        · subst hself
          rw [hheld, Option.some.injEq] at hbefore
          exact hmine hbefore.symm
        · exact hnobody peer hpeer (by rw [htouches.tile_of_ne hself, hbefore])
  · exact hinv.values.touch hinv.books hslot hheld htouches trivial
      (.inr hfinished) haggregate hprefix'
  · exact htouches.firstException.trans hinv.calm
  · intro event hevent
    rcases List.mem_append.mp hevent with hold | hnew
    · exact hinv.quiet event hold
    · obtain rfl : event = .wrote slot tile := by simpa using hnew
      exact ⟨tile, rfl⟩
  · intro outcome hsome
    rw [htouches.outcome] at hsome
    have hall := (hinv.outcome outcome hsome).1
    simp [not_allLeft hslot (hasLeft_of_tile hheld)] at hall

end Working

/-! ## Claiming a tile -/

section Claiming

variable {job : Job T} {trace : List Event} {before : State T}
variable {slot : ℕ} {pc : Pc T}

/-- The state after the `fetch_add` on a cluster's counter. -/
def State.fetchAdd (state : State T) (cluster : ℕ) : State T :=
  { state with
    clusterNextTile := Function.update state.clusterNextTile cluster
      (state.clusterNextTile cluster + 1) }

theorem fetchAdd_le (cluster other : ℕ) :
    before.clusterNextTile other ≤
      (before.fetchAdd cluster).clusterNextTile other := by
  by_cases hsame : other = cluster
  · subst hsame
    simp [State.fetchAdd]
  · simp [State.fetchAdd, hsame]

/-- Only the counter's own value becomes claimed. -/
theorem claimed_fetchAdd_iff {cluster other : ℕ}
    (hcluster : cluster < job.shape.clusters.numClusters) :
    Claimed job (before.fetchAdd cluster) other ↔
      Claimed job before other ∨ (job.shape.Owns cluster other ∧
        other = before.clusterNextTile cluster) := by
  constructor
  · rintro ⟨owner, howner, howns, hless⟩
    by_cases hsame : owner = cluster
    · subst hsame
      simp only [State.fetchAdd, Function.update_self] at hless
      rcases Nat.lt_succ_iff_lt_or_eq.mp hless with hold | hnew
      · exact .inl ⟨owner, howner, howns, hold⟩
      · exact .inr ⟨howns, hnew⟩
    · exact .inl ⟨owner, howner, howns,
        by simpa [State.fetchAdd, hsame] using hless⟩
  · rintro (⟨owner, howner, howns, hless⟩ | ⟨howns, rfl⟩)
    · exact ⟨owner, howner, howns, hless.trans_le (fetchAdd_le cluster owner)⟩
    · exact ⟨cluster, hcluster, howns, by simp [State.fetchAdd]⟩

theorem not_claimed_next {cluster : ℕ}
    (howns : job.shape.Owns cluster (before.clusterNextTile cluster)) :
    ¬ Claimed job before (before.clusterNextTile cluster) := by
  rintro ⟨owner, -, hother, hless⟩
  obtain rfl := hother.unique howns
  exact lt_irrefl _ hless

theorem pcOk_fetchAdd {cluster : ℕ} {held : Pc T}
    (hok : PcOk job before held) :
    PcOk job ((before.fetchAdd cluster).setPc slot pc) held := by
  cases held <;> exact hok

theorem TiledInv.claim (hinv : TiledInv job trace before)
    (hslot : slot < job.shape.participants)
    (hpc : before.pc slot = .claim)
    {cluster tile : ℕ} (hcluster : cluster = job.shape.clusters.clusterIdOfSlot slot)
    (htile : tile = before.clusterNextTile cluster)
    (hless : tile < job.shape.clusterLastTile cluster) :
    TiledInv job (trace ++ (some (Event.claimed slot tile)).toList)
      ((before.fetchAdd cluster).setPc slot (.loadFailed tile)) := by
  have howns : job.shape.Owns cluster tile :=
    ⟨htile ▸ hinv.books.started cluster, hless⟩
  have hid : cluster < job.shape.clusters.numClusters :=
    hcluster ▸ job.shape.clusters.id_lt slot hslot
  have hnew : ¬ Claimed job before tile := by
    rw [htile] at howns ⊢
    exact not_claimed_next howns
  have hclaimed : ∀ other,
      Claimed job ((before.fetchAdd cluster).setPc slot (.loadFailed tile))
        other ↔ Claimed job before other ∨ other = tile := by
    intro other
    refine (claimed_fetchAdd_iff hid).trans (or_congr Iff.rfl ?_)
    rw [← htile]
    exact ⟨fun hboth => hboth.2, fun hsame => ⟨hsame ▸ howns, hsame⟩⟩
  have hforeign : ∀ other < job.shape.participants, ∀ held,
      (before.pc other).tile = some held → held ≠ tile := by
    rintro other hother held hholds rfl
    exact hnew (hinv.books.claimed_of_held hother hholds)
  have hholds : ∀ other, other ≠ slot →
      (((before.fetchAdd cluster).setPc slot (.loadFailed tile)).pc other) =
        before.pc other := by
    intro other hother
    simp [State.setPc, State.fetchAdd, hother]
  have hself : ((before.fetchAdd cluster).setPc slot
      (.loadFailed tile)).pc slot = .loadFailed tile := by
    simp [State.setPc]
  have hfilter : ∀ other, other ≠ tile →
      (trace ++ (some (Event.claimed slot tile)).toList).filter
          (fun event => event.tile = some other) =
        trace.filter (fun event => event.tile = some other) := by
    intro other hother
    rw [filter_tile_append, if_neg (by simpa [Event.tile] using hother.symm),
      List.append_nil]
  obtain ⟨hflag, huntouched⟩ := hinv.values.fresh tile howns.lt_numTiles hnew
  constructor
  · constructor
    · intro other hother held hheld
      by_cases hmine : other = slot
      · subst hmine
        obtain rfl : tile = held := by simpa [hself, Pc.tile] using hheld
        exact ⟨hcluster ▸ howns, by simp [State.setPc, State.fetchAdd,
          ← hcluster, ← htile]⟩
      · rw [hholds other hmine] at hheld
        obtain ⟨hown, hnext⟩ := hinv.books.held other hother held hheld
        exact ⟨hown, hnext.trans_le (fetchAdd_le cluster _)⟩
    · intro left hleft right hright held hheldLeft hheldRight
      by_cases hl : left = slot <;> by_cases hr : right = slot
      · rw [hl, hr]
      · subst hl
        obtain rfl : tile = held := by simpa [hself, Pc.tile] using hheldLeft
        rw [hholds right hr] at hheldRight
        exact absurd rfl (hforeign right hright tile hheldRight)
      · subst hr
        obtain rfl : tile = held := by simpa [hself, Pc.tile] using hheldRight
        rw [hholds left hl] at hheldLeft
        exact absurd rfl (hforeign left hleft tile hheldLeft)
      · rw [hholds left hl] at hheldLeft
        rw [hholds right hr] at hheldRight
        exact hinv.books.unique left hleft right hright held hheldLeft hheldRight
    · intro other
      exact (hinv.books.started other).trans (fetchAdd_le cluster other)
    · intro other hother hleft
      by_cases hmine : other = slot
      · subst hmine
        simp [hself, Pc.hasLeft] at hleft
      · rw [hholds other hmine] at hleft
        exact (hinv.books.drained other hother hleft).trans
          (fetchAdd_le cluster _)
    · intro other hfresh
      rw [hclaimed, not_or] at hfresh
      rw [hfilter other hfresh.2]
      exact hinv.books.fresh other hfresh.1
    · intro other hother held hheld
      by_cases hmine : other = slot
      · subst hmine
        obtain rfl : tile = held := by simpa [hself, Pc.tile] using hheld
        rw [filter_tile_append, hinv.books.fresh tile hnew]
        simp [Event.tile]
      · rw [hholds other hmine] at hheld
        rw [hfilter held (hforeign other hother held hheld)]
        exact hinv.books.working other hother held hheld
    · intro other hother hnobody
      rw [hclaimed] at hother
      have hne : other ≠ tile := by
        rintro rfl
        exact hnobody slot hslot (by rw [hself]; rfl)
      rw [hfilter other hne]
      refine hinv.books.finished other (hother.resolve_right hne) ?_
      intro peer hpeer hheld
      by_cases hmine : peer = slot
      · subst hmine
        simp [hpc, Pc.tile] at hheld
      · exact hnobody peer hpeer (by rw [hholds peer hmine, hheld])
  · constructor
    · intro other hother
      by_cases hmine : other = slot
      · subst hmine
        rw [hself]
        exact ⟨hflag, huntouched⟩
      · rw [hholds other hmine]
        exact pcOk_fetchAdd (hinv.values.slots other hother)
    · intro other hbound hfresh
      rw [hclaimed, not_or] at hfresh
      exact hinv.values.fresh other hbound hfresh.1
    · intro other hother hnobody
      rw [hclaimed] at hother
      have hne : other ≠ tile := by
        rintro rfl
        exact hnobody slot hslot (by rw [hself]; rfl)
      refine hinv.values.finished other (hother.resolve_right hne) ?_
      intro peer hpeer hheld
      by_cases hmine : peer = slot
      · subst hmine
        simp [hpc, Pc.tile] at hheld
      · exact hnobody peer hpeer (by rw [hholds peer hmine, hheld])
    · exact hinv.values.aggregates
    · exact hinv.values.prefixes
  · exact hinv.calm
  · intro event hevent
    rcases List.mem_append.mp hevent with hold | hnewEvent
    · exact hinv.quiet event hold
    · obtain rfl : event = .claimed slot tile := by simpa using hnewEvent
      exact ⟨tile, rfl⟩
  · intro outcome hsome
    have hall := (hinv.outcome outcome hsome).1
    simp [not_allLeft hslot (show (before.pc slot).hasLeft = false by
      rw [hpc]; rfl)] at hall

/-- The last `fetch_add` of a slot. -/
theorem TiledInv.drain (hinv : TiledInv job trace before)
    (hslot : slot < job.shape.participants)
    (hpc : before.pc slot = .claim) {cluster : ℕ}
    (hcluster : cluster = job.shape.clusters.clusterIdOfSlot slot)
    (hmore : job.shape.clusterLastTile cluster ≤
      before.clusterNextTile cluster) :
    TiledInv job (trace ++ (none : Option Event).toList)
      ((before.fetchAdd cluster).setPc slot .left) := by
  have hid : cluster < job.shape.clusters.numClusters :=
    hcluster ▸ job.shape.clusters.id_lt slot hslot
  have hclaimed : ∀ other,
      Claimed job ((before.fetchAdd cluster).setPc slot .left) other ↔
        Claimed job before other := by
    intro other
    refine (claimed_fetchAdd_iff hid).trans (or_iff_left ?_)
    rintro ⟨howns, rfl⟩
    exact absurd howns.2 (by omega)
  have htiles : ∀ other,
      (((before.fetchAdd cluster).setPc slot .left).pc other).tile =
        (before.pc other).tile := by
    intro other
    by_cases hmine : other = slot
    · subst hmine
      simp [State.setPc, hpc, Pc.tile]
    · simp [State.setPc, State.fetchAdd, hmine]
  constructor
  · constructor
    · intro other hother held hheld
      rw [htiles] at hheld
      obtain ⟨hown, hnext⟩ := hinv.books.held other hother held hheld
      exact ⟨hown, hnext.trans_le (fetchAdd_le cluster _)⟩
    · intro left hleft right hright held hheldLeft hheldRight
      rw [htiles] at hheldLeft hheldRight
      exact hinv.books.unique left hleft right hright held hheldLeft hheldRight
    · intro other
      exact (hinv.books.started other).trans (fetchAdd_le cluster other)
    · intro other hother hleft
      by_cases hmine : other = slot
      · subst hmine
        rw [← hcluster]
        exact hmore.trans (fetchAdd_le cluster _)
      · have hbefore : (before.pc other).hasLeft = true := by
          simpa [State.setPc, State.fetchAdd, hmine] using hleft
        exact (hinv.books.drained other hother hbefore).trans
          (fetchAdd_le cluster _)
    · intro other hfresh
      rw [hclaimed] at hfresh
      simpa using hinv.books.fresh other hfresh
    · intro other hother held hheld
      rw [htiles] at hheld
      simpa using hinv.books.working other hother held hheld
    · intro other hother hnobody
      rw [hclaimed] at hother
      simpa using hinv.books.finished other hother
        fun peer hpeer => by rw [← htiles]; exact hnobody peer hpeer
  · constructor
    · intro other hother
      by_cases hmine : other = slot
      · subst hmine
        simp [State.setPc, PcOk]
      · have hsame : ((before.fetchAdd cluster).setPc slot .left).pc other =
            before.pc other := by
          simp [State.setPc, State.fetchAdd, hmine]
        rw [hsame]
        exact pcOk_fetchAdd (hinv.values.slots other hother)
    · intro other hbound hfresh
      rw [hclaimed] at hfresh
      exact hinv.values.fresh other hbound hfresh
    · intro other hother hnobody
      rw [hclaimed] at hother
      exact hinv.values.finished other hother
        fun peer hpeer => by rw [← htiles]; exact hnobody peer hpeer
    · exact hinv.values.aggregates
    · exact hinv.values.prefixes
  · exact hinv.calm
  · simpa using hinv.quiet
  · intro outcome hsome
    have hall := (hinv.outcome outcome hsome).1
    simp [not_allLeft hslot (show (before.pc slot).hasLeft = false by
      rw [hpc]; rfl)] at hall

end Claiming

/-! ## The program counters -/

section Slot

variable {job : Job T} {trace : List Event} {before after : State T}
variable {slot tile : ℕ} {pc : Pc T} {event : Option Event}

theorem TiledInv.tile_lt (hinv : TiledInv job trace before)
    (hslot : slot < job.shape.participants)
    (hheld : (before.pc slot).tile = some tile) :
    tile < job.shape.numTiles :=
  (hinv.books.held slot hslot tile hheld).1.lt_numTiles

theorem touches_setPc :
    Touches job before (before.setPc slot pc) slot pc tile :=
  ⟨rfl, rfl, fun _ _ => rfl, fun _ _ => rfl, fun _ _ => rfl, fun _ _ => rfl,
    rfl, rfl⟩

theorem touches_write {index : ℕ} {value : T}
    (hindex : job.shape.InTile tile index) :
    Touches job before ((before.write index value).setPc slot pc) slot pc
      tile := by
  refine ⟨rfl, rfl, fun _ _ => rfl, ?_, fun _ _ => rfl, fun _ _ => rfl, rfl,
    rfl⟩
  intro other hother
  have hne : other ≠ index := by
    rintro rfl
    exact hother hindex
  simp [State.setPc, State.write, hne]

/-- A move that stores nothing. -/
theorem TiledInv.quiet_work (hinv : TiledInv job trace before)
    (hslot : slot < job.shape.participants)
    (hheld : (before.pc slot).tile = some tile)
    (hkeeps : pc.tile = some tile) (hok : PcOk job before pc) :
    TiledInv job (trace ++ (none : Option Event).toList)
      (before.setPc slot pc) := by
  refine hinv.work hslot hheld touches_setPc hkeeps ?_
    (hinv.values.aggregates tile) (hinv.values.prefixes tile)
  cases pc <;> exact hok

theorem claim_inv (hinv : TiledInv job trace before)
    (hslot : slot < job.shape.participants) (hpc : before.pc slot = .claim)
    (hstep : stepSlot job before slot = some (after, event)) :
    TiledInv job (trace ++ event.toList) after := by
  simp only [stepSlot, hpc] at hstep
  split at hstep
  next hmore =>
    obtain ⟨rfl, rfl⟩ := by simpa using hstep
    exact hinv.drain hslot hpc rfl hmore
  next hless =>
    obtain ⟨rfl, rfl⟩ := by simpa using hstep
    exact hinv.claim hslot hpc rfl rfl (by omega)

theorem loadFailed_inv (hinv : TiledInv job trace before)
    (hslot : slot < job.shape.participants)
    (hpc : before.pc slot = .loadFailed tile)
    (hstep : stepSlot job before slot = some (after, event)) :
    TiledInv job (trace ++ event.toList) after := by
  have hheld : (before.pc slot).tile = some tile := by rw [hpc]; rfl
  have htile := hinv.tile_lt hslot hheld
  obtain ⟨hflag, huntouched⟩ : PcOk job before (.loadFailed tile) :=
    hpc ▸ hinv.values.slots slot hslot
  simp only [stepSlot, hpc, hinv.calm, Option.isSome_none, Bool.false_eq_true,
    if_false, Option.some.injEq, Prod.mk.injEq] at hstep
  obtain ⟨rfl, rfl⟩ := hstep
  refine hinv.quiet_work hslot hheld rfl ⟨hflag, le_rfl,
    (job.shape.tileLo_lt_tileHi htile).le, intervalFold_self.symm, ?_, ?_⟩
  · intro other hother hless
    exact absurd hless (not_lt.mpr hother.1)
  · exact fun other hother _ => huntouched other hother

theorem pass1_inv {index : ℕ} {localTotal : T}
    (hinv : TiledInv job trace before)
    (hthrows : ∀ site, job.throws site = false)
    (hslot : slot < job.shape.participants)
    (hpc : before.pc slot = .pass1 tile index localTotal)
    (hstep : stepSlot job before slot = some (after, event)) :
    TiledInv job (trace ++ event.toList) after := by
  have hheld : (before.pc slot).tile = some tile := by rw [hpc]; rfl
  obtain ⟨hflag, hlo, hhi, htotal, hdone, hrest⟩ :
      PcOk job before (.pass1 tile index localTotal) :=
    hpc ▸ hinv.values.slots slot hslot
  simp only [stepSlot, hpc, hthrows, Bool.false_eq_true, if_false] at hstep
  split at hstep
  next hmore =>
    obtain ⟨rfl, rfl⟩ := by simpa using hstep
    have hindex : job.shape.InTile tile index := ⟨hlo, hmore⟩
    have hvalue : job.prefixFn localTotal (before.readInput job index) =
        job.fold (job.shape.tileLo tile) (index + 1) := by
      rw [hrest index hindex le_rfl, htotal]
      exact (intervalFold_succ hlo).symm
    rw [hvalue]
    refine hinv.work hslot hheld (touches_write hindex) rfl
      ⟨hflag, hlo.trans (Nat.le_succ _), hmore, rfl, ?_, ?_⟩
      (hinv.values.aggregates tile) (hinv.values.prefixes tile)
    · intro other hother hless
      rcases Nat.lt_succ_iff_lt_or_eq.mp hless with hold | rfl
      · simpa [State.setPc, State.write, hold.ne] using
          hdone other hother hold
      · simp [State.setPc, State.write]
    · intro other hother hpast
      have hold := hrest other hother (by omega)
      have hne : other ≠ index := by omega
      simpa [Untouched, State.readInput, State.setPc, State.write, hne]
        using hold
  next hall =>
    obtain ⟨rfl, rfl⟩ := by simpa using hstep
    obtain rfl : index = job.shape.tileHi tile := by omega
    exact hinv.quiet_work hslot hheld rfl
      ⟨hflag, htotal, fun other hother => hdone other hother hother.2⟩

/-- The walk of a tile, from wherever its cursor stands. -/
theorem pcOk_afterFold {state : State T} {cursor : ℕ} {accum : T}
    (hflag : state.flag tile = .aggregateAvailable) (hzero : tile ≠ 0)
    (hcursor : cursor ≤ walkStart tile)
    (haccum : accum = job.fold (job.shape.tileLo cursor)
      (job.shape.tileLo (walkStart tile)))
    (hlocal : Local job state tile) :
    PcOk job state (afterFold tile cursor accum) := by
  unfold afterFold
  split
  next hstop =>
    subst hstop
    refine ⟨hflag, ?_, hlocal⟩
    rw [haccum]
    simp [Job.prefixOf, Shape.tileLo]
  next hmore => exact ⟨hflag, hzero, by omega, hcursor, haccum, hlocal⟩

theorem tile_afterFold {cursor : ℕ} {accum : T} :
    (afterFold tile cursor accum).tile = some tile := by
  unfold afterFold
  split <;> rfl

theorem publishAggregate_inv {localTotal : T}
    (hinv : TiledInv job trace before)
    (hslot : slot < job.shape.participants)
    (hpc : before.pc slot = .publishAggregate tile localTotal)
    (hstep : stepSlot job before slot = some (after, event)) :
    TiledInv job (trace ++ event.toList) after := by
  have hheld : (before.pc slot).tile = some tile := by rw [hpc]; rfl
  obtain ⟨hflag, htotal, hlocal⟩ :
      PcOk job before (.publishAggregate tile localTotal) :=
    hpc ▸ hinv.values.slots slot hslot
  simp only [stepSlot, hpc, Option.some.injEq, Prod.mk.injEq] at hstep
  obtain ⟨rfl, rfl⟩ := hstep
  have htouches : ∀ next : Pc T, Touches job before
      (((before.setAggregate tile localTotal).setFlag tile
        .aggregateAvailable).setPc slot next) slot next tile := by
    intro next
    refine ⟨rfl, rfl, ?_, fun _ _ => rfl, ?_, fun _ _ => rfl, rfl, rfl⟩ <;>
      · intro other hother
        simp [State.setPc, State.setFlag, State.setAggregate, hother]
  refine hinv.work hslot hheld (htouches _) ?_ ?_ ?_ ?_
  · split
    · rfl
    · exact tile_afterFold
  · split
    next hzero =>
      subst hzero
      refine ⟨by simp [State.setPc, State.setFlag], ?_, hlocal⟩
      simp [Job.prefixOf, walkStart, Shape.tileLo, Job.fold]
    next hzero =>
      refine pcOk_afterFold ?_ hzero le_rfl intervalFold_self.symm hlocal
      simp [State.setPc, State.setFlag]
  · intro _
    simpa [State.setPc, State.setFlag, State.setAggregate] using htotal
  · simp [State.setPc, State.setFlag]

/-- What a walk finds in front of its cursor. -/
theorem TiledInv.at_peer {cursor : ℕ} {accum : T}
    (hinv : TiledInv job trace before)
    (hslot : slot < job.shape.participants)
    (hpc : before.pc slot = .walk tile cursor accum) :
    cursor - 1 + 1 = cursor ∧ cursor - 1 < walkStart tile ∧
      job.aggregateOf (cursor - 1) =
        job.fold (job.shape.tileLo (cursor - 1)) (job.shape.tileLo cursor) := by
  have hheld : (before.pc slot).tile = some tile := by rw [hpc]; rfl
  have htile := hinv.tile_lt hslot hheld
  obtain ⟨-, -, hpos, hcursor, -, -⟩ : PcOk job before (.walk tile cursor accum) :=
    hpc ▸ hinv.values.slots slot hslot
  have hstart := walkStart_le tile
  refine ⟨by omega, by omega, ?_⟩
  unfold Job.aggregateOf
  rw [job.shape.tileHi_eq (show cursor - 1 < tile by omega) htile,
    Nat.sub_add_cancel hpos]

theorem walk_inv {cursor : ℕ} {accum : T} (hinv : TiledInv job trace before)
    (hthrows : ∀ site, job.throws site = false) (hmonoid : job.IsMonoid)
    (hslot : slot < job.shape.participants)
    (hpc : before.pc slot = .walk tile cursor accum)
    (hstep : stepSlot job before slot = some (after, event)) :
    TiledInv job (trace ++ event.toList) after := by
  have hheld : (before.pc slot).tile = some tile := by rw [hpc]; rfl
  obtain ⟨hflag, hzero, hpos, hcursor, haccum, hlocal⟩ :
      PcOk job before (.walk tile cursor accum) :=
    hpc ▸ hinv.values.slots slot hslot
  obtain ⟨hsucc, hpeer, hpeerAggregate⟩ := hinv.at_peer hslot hpc
  have hlo : job.shape.tileLo (cursor - 1) ≤ job.shape.tileLo cursor :=
    Nat.mul_le_mul_right _ (Nat.sub_le _ _)
  simp only [stepSlot, hpc, hthrows, Bool.false_eq_true, if_false] at hstep
  split at hstep
  next hpublished =>
    obtain ⟨rfl, rfl⟩ := by simpa using hstep
    refine hinv.quiet_work hslot hheld rfl
      ⟨hflag, hzero, hpeer, ?_, by rwa [hsucc], hlocal⟩
    -- the peer's own prefix is not truncated
    have hpeerPrefix : job.prefixOf (cursor - 1) =
        job.fold 0 (job.shape.tileLo (cursor - 1)) := by
      unfold Job.prefixOf
      rw [walkStart_of_lt hpeer]
    rw [hinv.values.prefixes _ hpublished, hpeerPrefix,
      hinv.values.aggregates _ (by simp [hpublished]), hpeerAggregate, hsucc]
    exact intervalFold_append hmonoid (Nat.zero_le _) hlo
  next haggregate =>
    obtain ⟨rfl, rfl⟩ := by simpa using hstep
    refine hinv.quiet_work hslot hheld tile_afterFold
      (pcOk_afterFold hflag hzero hpeer.le ?_ hlocal)
    rw [hinv.values.aggregates _ (by simp [haggregate]), hpeerAggregate,
      haccum]
    exact intervalFold_append hmonoid hlo (Nat.mul_le_mul_right _ hcursor)
  next => simp at hstep

theorem stitch_inv {peer : ℕ} {leftCombined accum : T}
    (hinv : TiledInv job trace before)
    (hthrows : ∀ site, job.throws site = false) (hmonoid : job.IsMonoid)
    (hslot : slot < job.shape.participants)
    (hpc : before.pc slot = .stitch tile peer leftCombined accum)
    (hstep : stepSlot job before slot = some (after, event)) :
    TiledInv job (trace ++ event.toList) after := by
  have hheld : (before.pc slot).tile = some tile := by rw [hpc]; rfl
  obtain ⟨hflag, hzero, hpeer, hleft, haccum, hlocal⟩ :
      PcOk job before (.stitch tile peer leftCombined accum) :=
    hpc ▸ hinv.values.slots slot hslot
  simp only [stepSlot, hpc, hthrows, Bool.false_eq_true, if_false,
    Option.some.injEq, Prod.mk.injEq] at hstep
  obtain ⟨rfl, rfl⟩ := hstep
  refine hinv.quiet_work hslot hheld rfl ⟨hflag, ?_, hlocal⟩
  rw [hleft, haccum]
  exact intervalFold_append hmonoid (Nat.zero_le _)
    (Nat.mul_le_mul_right _ hpeer)

theorem publishPrefix_inv {myPrefix : T} (hinv : TiledInv job trace before)
    (hmonoid : job.IsMonoid) (hslot : slot < job.shape.participants)
    (hpc : before.pc slot = .publishPrefix tile myPrefix)
    (hstep : stepSlot job before slot = some (after, event)) :
    TiledInv job (trace ++ event.toList) after := by
  have hheld : (before.pc slot).tile = some tile := by rw [hpc]; rfl
  have htile := hinv.tile_lt hslot hheld
  obtain ⟨hflag, hvalue, hlocal⟩ :
      PcOk job before (.publishPrefix tile myPrefix) :=
    hpc ▸ hinv.values.slots slot hslot
  have hstored := hinv.values.aggregates tile (by simp [hflag])
  have htouches : ∀ next : Pc T, Touches job before
      (((before.setPrefix tile myPrefix).setFlag tile
        .prefixAvailable).setPc slot next) slot next tile := by
    intro next
    refine ⟨rfl, rfl, ?_, fun _ _ => rfl, fun _ _ => rfl, ?_, rfl, rfl⟩ <;>
      · intro other hother
        simp [State.setPc, State.setFlag, State.setPrefix, hother]
  simp only [stepSlot, hpc] at hstep
  split at hstep
  next hfirst =>
    obtain ⟨rfl, rfl⟩ := by simpa using hstep
    refine hinv.finish hslot hheld (htouches _) ⟨?_, ?_⟩ (fun _ => hstored) ?_
    · simp [State.setPc, State.setFlag]
    · intro index hindex
      have hidentity : job.prefixOf tile = job.identity := by
        simp [hfirst, Job.prefixOf, walkStart, Shape.tileLo, Job.fold]
      unfold Job.finalOf
      rw [hidentity, hmonoid.left_id]
      exact hlocal index hindex
    · intro _
      simpa [State.setPc, State.setFlag, State.setPrefix] using hvalue
  next hlater =>
    obtain ⟨rfl, rfl⟩ := by simpa using hstep
    refine hinv.work hslot hheld (htouches _) rfl
      ⟨by simp [State.setPc, State.setFlag], hlater, hvalue, le_rfl,
        (job.shape.tileLo_lt_tileHi htile).le, ?_, ?_⟩ (fun _ => hstored) ?_
    · intro other hother hless
      exact absurd hless (not_lt.mpr hother.1)
    · exact fun other hother _ => hlocal other hother
    · intro _
      simpa [State.setPc, State.setFlag, State.setPrefix] using hvalue

theorem pass2_inv {index : ℕ} {myPrefix : T}
    (hinv : TiledInv job trace before)
    (hthrows : ∀ site, job.throws site = false)
    (hslot : slot < job.shape.participants)
    (hpc : before.pc slot = .pass2 tile index myPrefix)
    (hstep : stepSlot job before slot = some (after, event)) :
    TiledInv job (trace ++ event.toList) after := by
  have hheld : (before.pc slot).tile = some tile := by rw [hpc]; rfl
  obtain ⟨hflag, hzero, hvalue, hlo, hhi, hdone, hrest⟩ :
      PcOk job before (.pass2 tile index myPrefix) :=
    hpc ▸ hinv.values.slots slot hslot
  simp only [stepSlot, hpc, hthrows, Bool.false_eq_true, if_false] at hstep
  split at hstep
  next hmore =>
    obtain ⟨rfl, rfl⟩ := by simpa using hstep
    have hindex : job.shape.InTile tile index := ⟨hlo, hmore⟩
    have hfinal : job.prefixFn myPrefix (before.out index) =
        job.finalOf tile index := by
      rw [hrest index hindex le_rfl, hvalue]
      rfl
    rw [hfinal]
    refine hinv.work hslot hheld (touches_write hindex) rfl
      ⟨hflag, hzero, hvalue, hlo.trans (Nat.le_succ _), hmore, ?_, ?_⟩
      (hinv.values.aggregates tile) (hinv.values.prefixes tile)
    · intro other hother hless
      rcases Nat.lt_succ_iff_lt_or_eq.mp hless with hold | rfl
      · simpa [State.setPc, State.write, hold.ne] using
          hdone other hother hold
      · simp [State.setPc, State.write]
    · intro other hother hpast
      have hold := hrest other hother (by omega)
      have hne : other ≠ index := by omega
      simpa [State.setPc, State.write, hne] using hold
  next hall =>
    obtain ⟨rfl, rfl⟩ := by simpa using hstep
    exact hinv.finish hslot hheld touches_setPc
      ⟨hflag, fun other hother => hdone other hother
        (hother.2.trans_le (by omega))⟩
      (hinv.values.aggregates tile) (hinv.values.prefixes tile)

theorem stepSlot_tiledInv (hinv : TiledInv job trace before)
    (hthrows : ∀ site, job.throws site = false) (hmonoid : job.IsMonoid)
    (hslot : slot < job.shape.participants)
    (hstep : stepSlot job before slot = some (after, event)) :
    TiledInv job (trace ++ event.toList) after := by
  have hok := hinv.values.slots slot hslot
  cases hpc : before.pc slot with
  | claim => exact claim_inv hinv hslot hpc hstep
  | loadFailed tile => exact loadFailed_inv hinv hslot hpc hstep
  | pass1 tile index localTotal => exact pass1_inv hinv hthrows hslot hpc hstep
  | publishAggregate tile localTotal =>
      exact publishAggregate_inv hinv hslot hpc hstep
  | walk tile cursor accum => exact walk_inv hinv hthrows hmonoid hslot hpc hstep
  | stitch tile peer leftCombined accum =>
      exact stitch_inv hinv hthrows hmonoid hslot hpc hstep
  | publishPrefix tile myPrefix =>
      exact publishPrefix_inv hinv hmonoid hslot hpc hstep
  | pass2 tile index myPrefix => exact pass2_inv hinv hthrows hslot hpc hstep
  | left => simp [stepSlot, hpc] at hstep
  | pollToken => exact absurd hok (by rw [hpc]; exact id)
  | serial index running => exact absurd hok (by rw [hpc]; exact id)
  | capture site tile => exact absurd hok (by rw [hpc]; exact id)
  | giveUp tile => exact absurd hok (by rw [hpc]; exact id)

end Slot

/-! ## Every run -/

section Machine

variable {job : Job T} {trace : List Event} {before after : State T}
variable {action : Action} {event : Option Event}

/-- The token and the outcome may change without any slot moving. -/
theorem TiledInv.retouch (hinv : TiledInv job trace before) (stop : Bool)
    (outcome : Option (Except Site T))
    (houtcome : ∀ result, outcome = some result →
      before.allLeft job = true ∧
        (stop = false → result =
          .ok (job.prefixFn (before.tilePrefix (job.shape.numTiles - 1))
            (before.aggregate (job.shape.numTiles - 1))))) :
    TiledInv job trace { before with
      stopRequested := stop
      outcome := outcome } where
  books := ⟨hinv.books.held, hinv.books.unique, hinv.books.started,
    hinv.books.drained, hinv.books.fresh, hinv.books.working,
    hinv.books.finished⟩
  values := by
    refine ⟨fun slot hslot => ?_, hinv.values.fresh, hinv.values.finished,
      hinv.values.aggregates, hinv.values.prefixes⟩
    have hok := hinv.values.slots slot hslot
    cases hpc : before.pc slot <;> rw [hpc] at hok <;> exact hok
  calm := hinv.calm
  quiet := hinv.quiet
  outcome := houtcome

theorem tiledInv_step (hinv : TiledInv job trace before)
    (hthrows : ∀ site, job.throws site = false) (hmonoid : job.IsMonoid)
    (hstep : (inclusiveScan job).step before action = some (after, event)) :
    TiledInv job (trace ++ event.toList) after := by
  cases action with
  | slot slot =>
      simp only [inclusiveScan] at hstep
      split at hstep
      next hslot => exact stepSlot_tiledInv hinv hthrows hmonoid hslot hstep
      next => simp at hstep
  | join =>
      simp only [inclusiveScan] at hstep
      split at hstep
      next hready =>
        obtain ⟨rfl, rfl⟩ := by simpa using hstep
        have hjoined := hinv.retouch before.stopRequested
          (some (joinOutcome job before)) ?_
        · simpa using hjoined
        · intro result hresult
          obtain rfl := Option.some.inj hresult
          refine ⟨hready.2, fun hquiet => ?_⟩
          simp [joinOutcome, hinv.calm, hquiet, hthrows]
      next => simp at hstep
  | requestStop =>
      obtain ⟨rfl, rfl⟩ := by simpa [inclusiveScan] using hstep
      have hstopped := hinv.retouch true before.outcome
        fun result hresult => ⟨(hinv.outcome result hresult).1, by simp⟩
      simpa using hstopped

theorem tiledInv_start (job : Job T) (hpath : job.shape.path = .tiled)
    (scratch : ℕ → T) : TiledInv job [] (start job scratch) := by
  have hpc : ∀ slot, (start job scratch).pc slot = .claim := by
    intro slot
    simp [start, hpath]
  have hunclaimed : ∀ tile, ¬ Claimed job (start job scratch) tile := by
    rintro tile ⟨cluster, -, howns, hless⟩
    exact absurd howns.1 (not_le.mpr hless)
  have huntouched : ∀ index, Untouched job (start job scratch) index := by
    intro index
    unfold Untouched State.readInput
    split
    next hplace => simp [start, hplace]
    next => rfl
  constructor
  · constructor
    · intro slot _ tile hheld
      simp [hpc, Pc.tile] at hheld
    · intro slot _ other _ tile hheld
      simp [hpc, Pc.tile] at hheld
    · exact fun _ => le_rfl
    · intro slot _ hleft
      simp [hpc, Pc.hasLeft] at hleft
    · exact fun _ _ => rfl
    · intro slot _ tile hheld
      simp [hpc, Pc.tile] at hheld
    · exact fun tile hclaimed => absurd hclaimed (hunclaimed tile)
  · constructor
    · intro slot _
      rw [hpc]
      trivial
    · exact fun tile _ _ => ⟨rfl, fun index _ => huntouched index⟩
    · exact fun tile hclaimed => absurd hclaimed (hunclaimed tile)
    · exact fun tile hflag => absurd rfl hflag
    · intro tile hflag
      simp [start] at hflag
  · rfl
  · simp
  · simp [start, hpath]

/-- The invariant of a tiled scan holds after every run in which nothing
throws. -/
theorem tiledInv_run {scratch : ℕ → T} {state : State T}
    (hthrows : ∀ site, job.throws site = false) (hmonoid : job.IsMonoid)
    (hpath : job.shape.path = .tiled)
    (run : Reaches (inclusiveScan job) (start job scratch) trace state) :
    TiledInv job trace state :=
  run.invariant (TiledInv job) (tiledInv_start job hpath scratch)
    fun hinv _ hstep => tiledInv_step hinv hthrows hmonoid hstep

/-! ### The serial paths -/

theorem serialInv_slot (hinv : SerialInv job trace before)
    (hthrows : ∀ site, job.throws site = false)
    (hstep : stepSlot job before 0 = some (after, event)) :
    SerialInv job (trace ++ event.toList) after := by
  have hpcOk := hinv.pc
  cases hpc : before.pc 0 with
  | pollToken =>
      rw [hpc] at hpcOk
      obtain ⟨hnone, huntouched⟩ := hpcOk
      simp only [stepSlot, hpc] at hstep
      split at hstep
      next hstop =>
        obtain ⟨rfl, rfl⟩ := by simpa using hstep
        refine ⟨?_, by simpa using hinv.calm, ?_⟩
        · intro slot hslot
          simpa [State.return, State.setPc, hslot] using hinv.alone slot hslot
        · simp [State.return, State.setPc, hstop]
      next =>
        obtain ⟨rfl, rfl⟩ := by simpa using hstep
        refine ⟨?_, by simpa using hinv.calm, ?_⟩
        · intro slot hslot
          simpa [State.setPc, hslot] using hinv.alone slot hslot
        · simp only [State.setPc, Function.update_self]
          exact ⟨hnone, Nat.zero_le _, intervalFold_self.symm, by simp,
            fun index _ => huntouched index⟩
  | serial index running =>
      rw [hpc] at hpcOk
      obtain ⟨hnone, hbound, hrunning, hdone, hrest⟩ := hpcOk
      simp only [stepSlot, hpc, hthrows, Bool.false_eq_true, if_false]
        at hstep
      split at hstep
      next hmore =>
        obtain ⟨rfl, rfl⟩ := by simpa using hstep
        have hvalue : job.prefixFn running (before.readInput job index) =
            job.fold 0 (index + 1) := by
          rw [hrest index le_rfl, hrunning]
          exact (intervalFold_succ (Nat.zero_le _)).symm
        refine ⟨?_, by simpa using hinv.calm, ?_⟩
        · intro slot hslot
          simpa [State.write, State.setPc, hslot] using hinv.alone slot hslot
        · simp only [State.setPc, Function.update_self]
          refine ⟨hnone, hmore, hvalue, ?_, ?_⟩
          · intro other hless
            rcases Nat.lt_succ_iff_lt_or_eq.mp hless with hold | rfl
            · simpa [State.write, hold.ne] using hdone other hold
            · simpa [State.write] using hvalue
          · intro other hpast
            have hold := hrest other (by omega)
            have hne : other ≠ index := by omega
            simpa [Untouched, State.readInput, State.write, hne] using hold
      next hall =>
        obtain ⟨rfl, rfl⟩ := by simpa using hstep
        obtain rfl : index = job.shape.n := by omega
        refine ⟨?_, by simpa using hinv.calm, ?_⟩
        · intro slot hslot
          simpa [State.return, State.setPc, hslot] using hinv.alone slot hslot
        · simp only [State.return, State.setPc, Function.update_self]
          exact ⟨_, rfl, fun _ => ⟨by rw [hrunning], hdone⟩⟩
  | left => simp [stepSlot, hpc] at hstep
  | _ =>
      rw [hpc] at hpcOk
      exact hpcOk.elim

theorem serialInv_step (hinv : SerialInv job trace before)
    (hthrows : ∀ site, job.throws site = false)
    (hstep : (inclusiveScan job).step before action = some (after, event)) :
    SerialInv job (trace ++ event.toList) after := by
  have hpcOk := hinv.pc
  cases action with
  | slot slot =>
      simp only [inclusiveScan] at hstep
      split at hstep
      next =>
        by_cases hslot : slot = 0
        · subst hslot
          exact serialInv_slot hinv hthrows hstep
        · simp [stepSlot, hinv.alone slot hslot] at hstep
      next => simp at hstep
  | join =>
      simp only [inclusiveScan] at hstep
      split at hstep
      next hready =>
        -- slot 0 has left, so the call has already returned
        have hleft : (before.pc 0).hasLeft = true := by
          have hall := hready.2
          simp only [State.allLeft, List.all_eq_true, List.mem_range] at hall
          exact hall 0 job.shape.participants_pos
        cases hpc : before.pc 0 <;> rw [hpc] at hleft hpcOk <;>
          simp only [Pc.hasLeft, Bool.false_eq_true] at hleft
        obtain ⟨outcome, houtcome, -⟩ := hpcOk
        simp [houtcome] at hready
      next => simp at hstep
  | requestStop =>
      obtain ⟨rfl, rfl⟩ := by simpa [inclusiveScan] using hstep
      refine ⟨hinv.alone, by simpa using hinv.calm, ?_⟩
      cases hpc : before.pc 0 <;> rw [hpc] at hpcOk <;> simp only
      case left =>
        obtain ⟨outcome, houtcome, -⟩ := hpcOk
        exact ⟨outcome, houtcome, by simp⟩
      all_goals exact hpcOk

theorem serialInv_start (job : Job T) (hpath : job.shape.path ≠ .tiled)
    (scratch : ℕ → T) : SerialInv job [] (start job scratch) := by
  have huntouched : ∀ index, Untouched job (start job scratch) index := by
    intro index
    unfold Untouched State.readInput
    split
    next hplace => simp [start, hplace]
    next => rfl
  have hempty : job.shape.path = .empty → job.shape.n = 0 := by
    unfold Shape.path
    split
    · exact fun _ => ‹_›
    · repeat' split
      all_goals simp
  refine ⟨?_, rfl, ?_⟩
  · intro slot hslot
    cases hcase : job.shape.path <;> simp_all [start]
  · cases hcase : job.shape.path with
    | empty =>
        have hzero := hempty hcase
        have hpc : (start job scratch).pc 0 = .left := by simp [start, hcase]
        rw [hpc]
        refine ⟨.ok job.identity, by simp [start, hcase], fun _ => ⟨?_, ?_⟩⟩
        · rw [hzero, Job.fold, intervalFold_self]
        · intro index hindex
          omega
    | oversized =>
        have hpc : (start job scratch).pc 0 = .serial 0 job.identity := by
          simp [start, hcase]
        rw [hpc]
        exact ⟨by simp [start, hcase], Nat.zero_le _, intervalFold_self.symm,
          by simp, fun index _ => huntouched index⟩
    | serial =>
        have hpc : (start job scratch).pc 0 = .pollToken := by
          simp [start, hcase]
        rw [hpc]
        exact ⟨by simp [start, hcase], huntouched⟩
    | tiled => exact absurd hcase hpath

theorem serialInv_run {scratch : ℕ → T} {state : State T}
    (hthrows : ∀ site, job.throws site = false)
    (hpath : job.shape.path ≠ .tiled)
    (run : Reaches (inclusiveScan job) (start job scratch) trace state) :
    SerialInv job trace state :=
  run.invariant (SerialInv job) (serialInv_start job hpath scratch)
    fun hinv _ hstep => serialInv_step hinv hthrows hstep

end Machine

end Citor.Lookback
