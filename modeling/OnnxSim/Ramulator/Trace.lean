import OnnxSim.Lib.Loops
import OnnxSim.Ramulator.Progress

/-!
# The commands of a run

In every run of a controller, whatever requests come and whatever the scheduler, each command has waited
for all entries of the timing tables that concern it (`Controller.commands_legal`) and fits the rows that
the commands before it have left open (`Controller.commands_fit`); no assertion fails unless the queue of
the refreshes overflows (`Controller.tick_fails_iff`). `DDR4` never refreshes
(`DDR4.refresh_never_issued`).
-/

namespace OnnxSim.Ram

open Recent

variable {spec : Spec} {id : Nat} {log : List Issue} {cmd : Command} {addr : AddrVec} {level : Level}

/-- A command that fits waits at all levels down to its scope. -/
theorem Fits.reaches (h : Fits spec id log cmd addr) (hstd : Standard spec)
    (hbank : level.toNat ≤ Level.Bank.toNat) (hscope : level.toNat ≤ (spec.scope cmd).toNat) :
    Reaches spec cmd addr level := by
  have haccess : Addressed spec id addr → Reaches spec cmd addr level := by
    intro haddr
    refine ⟨hbank, hscope, fun k hpos hle => ?_⟩
    have hbelow := haddr.inChannel.below
    have hthree : Level.Bank.toNat = 3 := rfl
    rcases (by omega : k = 1 ∨ k = 2 ∨ k = 3) with rfl | rfl | rfl
    · exact (hbelow .Rank (by decide) (by decide)).1
    · exact (hbelow .BankGroup (by decide) (by decide)).1
    · exact (hbelow .Bank (by decide) (by decide)).1
  have hrank : RankAddr spec id addr → (spec.scope cmd).toNat ≤ 1 → Reaches spec cmd addr level := by
    intro haddr hone
    refine ⟨hbank, hscope, fun k hpos hle => ?_⟩
    obtain rfl : k = 1 := by omega
    exact haddr.rank.1
  rw [hstd.scope] at hrank
  cases h with
  | act addressed _ => exact haccess addressed
  | pre addressed _ _ => exact haccess addressed
  | rd addressed _ => exact haccess addressed
  | wr addressed _ => exact haccess addressed
  | prea rank _ => exact hrank rank (by decide)
  | ref rank _ => exact hrank rank (by decide)
  | pde rank => exact hrank rank (by decide)
  | pdx rank => exact hrank rank (by decide)

/-- Commands of one kind for one node keep the distance of each entry about them. -/
theorem Legal.spaced (h : Legal spec log) {t : TimingEntry} (ht : t ∈ spec.timing level cmd)
    (hcmd : t.cmd = cmd) (hsib : t.sibling = false)
    (hreach : ∀ e ∈ log, e.cmd = cmd → Reaches spec cmd e.addr level) (addr : AddrVec) :
    Spaced t.dist (fun past clk : Nat => (past : Int) + t.val ≤ clk) (issued level addr cmd log) := by
  have hdist := (spec.timing_dist level cmd t ht hsib).1
  induction log using List.reverseRecOn with
  | nil => exact .nil _
  | append_singleton log e ih =>
    obtain ⟨hbefore, hallowed⟩ := eachAfter_snoc_iff.mp h
    have hrest := ih hbefore fun e' he' => hreach e' (List.mem_append_left _ he')
    rw [issued_snoc]
    by_cases hissue : e.cmd = cmd ∧ e.addr.Agree (level.toNat + 1) addr
    · rw [if_pos hissue]
      refine hrest.snoc fun past hpast => ?_
      have hlevel := hallowed level (by
        rw [hissue.1]
        exact hreach e (List.mem_append_right _ (List.mem_singleton_self e)) hissue.1)
      rw [Node.Tracks.levelAllows_congr hissue.2] at hlevel
      refine hlevel cmd t ht (hcmd.trans hissue.1.symm) past ?_
      unfold binding
      rw [hsib, if_neg Bool.false_ne_true]
      obtain ⟨k, hk⟩ := Nat.exists_eq_add_of_lt hdist
      rw [Nat.zero_add] at hk
      rw [hk, List.reverse_append, List.reverse_singleton, List.singleton_append,
        List.drop_succ_cons] at hpast
      rw [hk]
      exact hpast
    · rw [if_neg hissue, List.append_nil]
      exact hrest

namespace Controller

variable {scheduler : SchedulerType} {c : Controller} {h : List (Controller × Act)}

/-- The clock and the commands issued after one more call. -/
def record (s : Nat × List Issue) : Act → Nat × List Issue
  | .enqueue _ => s
  | .tick out => (s.1 + 1, logged s.2 (s.1 + 1) out)

/-- The commands that a run has issued, the oldest first. -/
def commands (h : List (Controller × Act)) : List Issue :=
  ((h.map Prod.snd).foldl record (0, [])).2

/-- What is known after a run with this clock and these commands. -/
structure Traced (spec : Spec) (id : Nat) (s : Nat × List Issue) (c : Controller) : Prop where
  clk : c.clk = s.1
  inv : Inv spec id s.2 c
  issued : EachAfter (Issued spec id) s.2

theorem Traced.tick {s : Nat × List Issue} {c' : Controller} {out : Outcome} (hstd : Standard spec)
    (h : Traced spec id s c) (hs : c.tick spec = some (c', out)) :
    Traced spec id (record s (.tick out)) c' := by
  obtain ⟨hinv, hclk, hissued⟩ := h.inv.tick hstd hs
  rw [h.clk] at hinv hclk hissued
  refine ⟨hclk, hinv, ?_⟩
  change EachAfter _ (logged s.2 (s.1 + 1) out)
  unfold logged
  cases hout : out.issue with
  | none =>
    rw [Option.map_none, Option.toList_none, List.append_nil]
    exact h.issued
  | some i =>
    rw [Option.map_some, Option.toList_some]
    exact eachAfter_snoc_iff.mpr ⟨h.issued, hissued i hout⟩

theorem Run.traced (hstd : Standard spec) (run : Run spec scheduler id h c) :
    Traced spec id ((h.map Prod.snd).foldl record (0, [])) c := by
  induction run with
  | nil => exact ⟨rfl, .init hstd scheduler id, eachAfter_nil _⟩
  | snoc run step ih =>
    rw [List.map_append, List.foldl_append]
    cases step with
    | enqueue incoming eq =>
      refine ⟨?_, ih.inv.enqueue incoming eq, ih.issued⟩
      obtain ⟨-, rfl⟩ := enqueue_eq eq
      rw [withQueue_clk]
      exact ih.clk
    | tick eq => exact ih.tick hstd eq

/-! ## Runs on fixed requests -/

/-- A call from outside: of `enqueue` with a request, or of `tick`. -/
def call (spec : Spec) (c : Controller) : Option Request → Option (Act × Controller)
  | some req => (c.enqueue req).map fun c' => (.enqueue req, c')
  | none => (c.tick spec).map fun p => (.tick p.2, p.1)

/-- A run and one more call. -/
def play (spec : Spec) (p : List (Controller × Act) × Controller) (x : Option Request) :
    Option (List (Controller × Act) × Controller) :=
  (p.2.call spec x).map fun q => (p.1 ++ [(p.2, q.1)], q.2)

theorem Run.play {l : List (Option Request)} {p : List (Controller × Act) × Controller}
    (hl : ∀ req, some req ∈ l → Incoming spec id req)
    (hp : l.foldlM (Controller.play spec) ([], init spec scheduler id) = some p) :
    Run spec scheduler id p.1 p.2 := by
  refine Loops.foldlM_induction (P := fun p => Run spec scheduler id p.1 p.2) hp .nil ?_
  intro p x hx q run hq
  obtain ⟨⟨a, c'⟩, hcall, rfl⟩ := Option.map_eq_some_iff.mp hq
  refine run.snoc ?_
  cases x with
  | none =>
    obtain ⟨⟨c₁, out⟩, htick, heq⟩ := Option.map_eq_some_iff.mp hcall
    obtain ⟨rfl, rfl⟩ := Prod.mk.inj heq
    exact .tick htick
  | some req =>
    obtain ⟨c₁, henqueue, heq⟩ := Option.map_eq_some_iff.mp hcall
    obtain ⟨rfl, rfl⟩ := Prod.mk.inj heq
    exact .enqueue (hl req hx) henqueue

/-- A read of a row in rank 0 of channel 0. -/
def readAt (bankGroup bank row : Nat) : Request where
  type := .READ
  addr := 0
  addrVec := [0, 0, (bankGroup : Int), (bank : Int), (row : Int), 0]

theorem readAt_incoming {bankGroup bank : Nat} (hrank : 0 < spec.count .Rank)
    (hgroup : bankGroup < spec.count .BankGroup) (hbank : bank < spec.count .Bank) (row : Nat) :
    Incoming spec 0 (readAt bankGroup bank row) := by
  refine ⟨.inl rfl, rfl, rfl, rfl, fun level hpos hle => ?_⟩
  cases level with
  | Channel => exact absurd hpos (Nat.lt_irrefl 0)
  | Rank => exact ⟨le_rfl, Int.ofNat_lt.mpr hrank⟩
  | BankGroup => exact ⟨Int.natCast_nonneg bankGroup, Int.ofNat_lt.mpr hgroup⟩
  | Bank => exact ⟨Int.natCast_nonneg bank, Int.ofNat_lt.mpr hbank⟩
  | Row => exact absurd hle (by decide)
  | Column => exact absurd hle (by decide)

/-- Some reads, and some calls of `tick` after them. -/
def reading (reqs : List Request) (ticks : Nat) : List (Option Request) :=
  reqs.map some ++ List.replicate ticks none

theorem mem_reading {reqs : List Request} {ticks : Nat} {req : Request}
    (h : some req ∈ reading reqs ticks) : req ∈ reqs := by
  rcases List.mem_append.mp h with h | h
  · obtain ⟨req', hreq, heq⟩ := List.mem_map.mp h
    obtain rfl := Option.some.inj heq
    exact hreq
  · cases (List.mem_replicate.mp h).2

/-- One channel of one rank. -/
def HBM_1Gbps : Spec := HBM.spec .HBM_1Gb .HBM_1Gbps 1 1

theorem HBM_1Gbps.standard : Standard HBM_1Gbps := HBM.standard .HBM_1Gb .HBM_1Gbps (by decide) (by decide)

theorem exists_run {reqs : List Request} (hreqs : ∀ req ∈ reqs, Incoming HBM_1Gbps 0 req)
    (ticks : Nat) (log : List Issue)
    (h : ((reading reqs ticks).foldlM (Controller.play HBM_1Gbps) ([], init HBM_1Gbps .FRFCFS 0)).map
      (fun p => commands p.1) = some log) :
    ∃ h c, Run HBM_1Gbps .FRFCFS 0 h c ∧ commands h = log := by
  obtain ⟨⟨h, c⟩, hp, hlog⟩ := Option.map_eq_some_iff.mp h
  exact ⟨h, c, Run.play (fun req hreq => hreqs req (mem_reading hreq)) hp, hlog⟩

/-- Reads of two rows of one bank. -/
def conflicting : List Request := [readAt 0 0 5, readAt 0 0 6]

def conflictingLog : List Issue := [
  ⟨.ACT, [0, 0, 0, 0, 5, 0], 1⟩, ⟨.RD, [0, 0, 0, 0, 5, 0], 8⟩, ⟨.PRE, [0, 0, 0, 0, 6, 0], 18⟩,
  ⟨.ACT, [0, 0, 0, 0, 6, 0], 25⟩]

/-- Reads of five banks. -/
def spread : List Request := [readAt 0 0 5, readAt 0 1 5, readAt 1 0 5, readAt 1 1 5, readAt 2 0 5]

def spreadLog : List Issue := [
  ⟨.ACT, [0, 0, 0, 0, 5, 0], 1⟩, ⟨.ACT, [0, 0, 1, 0, 5, 0], 5⟩, ⟨.RD, [0, 0, 0, 0, 5, 0], 8⟩,
  ⟨.ACT, [0, 0, 0, 1, 5, 0], 9⟩, ⟨.RD, [0, 0, 1, 0, 5, 0], 12⟩, ⟨.ACT, [0, 0, 1, 1, 5, 0], 13⟩,
  ⟨.RD, [0, 0, 0, 1, 5, 0], 16⟩, ⟨.RD, [0, 0, 1, 1, 5, 0], 20⟩, ⟨.ACT, [0, 0, 2, 0, 5, 0], 21⟩]

theorem spread_incoming : ∀ req ∈ spread, Incoming HBM_1Gbps 0 req := by
  intro req hreq
  simp only [spread, List.mem_cons, List.not_mem_nil, or_false] at hreq
  rcases hreq with rfl | rfl | rfl | rfl | rfl <;>
    exact readAt_incoming (by decide) (by decide) (by decide) 5

theorem conflicting_incoming : ∀ req ∈ conflicting, Incoming HBM_1Gbps 0 req := by
  intro req hreq
  simp only [conflicting, List.mem_cons, List.not_mem_nil, or_false] at hreq
  rcases hreq with rfl | rfl <;> exact readAt_incoming (by decide) (by decide) (by decide) _

/-! ## All runs -/

/-- In every run each command has waited for whatever the timing tables ask it to. -/
theorem commands_legal (hstd : Standard spec) (run : Run spec scheduler id h c) :
    Legal spec (commands h) :=
  fun before e after heq => ((Run.traced hstd run).issued before e after heq).allowed

theorem commands_legal_conflicting : ∃ h c, Run HBM_1Gbps .FRFCFS 0 h c ∧
    commands h = conflictingLog ∧ Legal HBM_1Gbps (commands h) := by
  obtain ⟨h, c, run, hlog⟩ := exists_run conflicting_incoming 25 conflictingLog (by decide +kernel)
  exact ⟨h, c, run, hlog, commands_legal HBM_1Gbps.standard run⟩

/-- In every run accesses are for the open row, activations for a closed bank, precharges for another
open row and refreshes for a rank without one. -/
theorem commands_fit (hstd : Standard spec) (run : Run spec scheduler id h c) :
    EachAfter (fun before e => Fits spec id before e.cmd e.addr) (commands h) :=
  fun before e after heq => ((Run.traced hstd run).issued before e after heq).fits

theorem commands_fit_conflicting : ∃ h c, Run HBM_1Gbps .FRFCFS 0 h c ∧
    commands h = conflictingLog ∧
    EachAfter (fun before e => Fits HBM_1Gbps 0 before e.cmd e.addr) (commands h) := by
  obtain ⟨h, c, run, hlog⟩ := exists_run conflicting_incoming 25 conflictingLog (by decide +kernel)
  exact ⟨h, c, run, hlog, commands_fit HBM_1Gbps.standard run⟩

/-- In every run the commands of one kind for one node keep the distances of the tables; with the entry
that looks back four activations of a rank, no five of them are closer than `nFAW`. -/
theorem commands_spaced (hstd : Standard spec) (run : Run spec scheduler id h c) {t : TimingEntry}
    (ht : t ∈ spec.timing level cmd) (hcmd : t.cmd = cmd) (hsib : t.sibling = false)
    (hbank : level.toNat ≤ Level.Bank.toNat) (hscope : level.toNat ≤ (spec.scope cmd).toNat)
    (addr : AddrVec) :
    Spaced t.dist (fun past clk : Nat => (past : Int) + t.val ≤ clk)
      (issued level addr cmd (commands h)) := by
  have htraced := (Run.traced hstd run).issued
  have hlegal : Legal spec (commands h) := htraced.mono fun _ _ hissued => hissued.allowed
  refine hlegal.spaced ht hcmd hsib (fun e he hissue => ?_) addr
  obtain ⟨before, after, heq⟩ := List.append_of_mem he
  rw [← hissue] at hscope ⊢
  exact (htraced before e after heq).fits.reaches hstd hbank hscope

/-- Four activations of a rank within twelve cycles, and the fifth `nFAW` after the first. -/
theorem commands_spaced_spread : ∃ h c, Run HBM_1Gbps .FRFCFS 0 h c ∧
    issued .Rank [0, 0] .ACT (commands h) = [1, 5, 9, 13, 21] ∧
    Spaced 4 (fun past clk : Nat => (past : Int) + (HBM.initSpeed .HBM_1Gbps .HBM_1Gb).nFAW ≤ clk)
      (issued .Rank [0, 0] .ACT (commands h)) := by
  obtain ⟨h, c, run, hlog⟩ := exists_run spread_incoming 21 spreadLog (by decide +kernel)
  refine ⟨h, c, run, by rw [hlog]; decide, ?_⟩
  have hentry : (⟨.ACT, 4, (HBM.initSpeed .HBM_1Gbps .HBM_1Gb).nFAW, false⟩ : TimingEntry) ∈
      HBM_1Gbps.timing .Rank .ACT := by
    simp [HBM_1Gbps, HBM.spec, HBM.timing, HBM.timingRank]
  exact commands_spaced HBM_1Gbps.standard run hentry rfl rfl (by decide) (by decide) [0, 0]

/-- After every run, the next call of `tick` fails exactly if refreshes are due that do not fit into
their queue. -/
theorem tick_fails_iff (hstd : Standard spec) (run : Run spec scheduler id h c) :
    c.tick spec = none ↔ Crowded spec c := by
  have hsome := (Run.traced hstd run).inv.tick_isSome hstd
  rw [← Option.not_isSome_iff_eq_none, hsome, not_not]

theorem tick_fails_iff_spread : ∃ h c, Run HBM_1Gbps .FRFCFS 0 h c ∧ commands h = spreadLog ∧
    (c.tick HBM_1Gbps = none ↔ Crowded HBM_1Gbps c) := by
  obtain ⟨h, c, run, hlog⟩ := exists_run spread_incoming 21 spreadLog (by decide +kernel)
  exact ⟨h, c, run, hlog, tick_fails_iff HBM_1Gbps.standard run⟩

/-- A standard that translates a refresh into something else never refreshes. -/
theorem commands_no_refresh (hstd : Standard spec) (hrefresh : spec.translate .REFRESH ≠ .REF)
    (run : Run spec scheduler id h c) : ∀ e ∈ commands h, e.cmd ≠ .REF := by
  intro e he href
  obtain ⟨before, after, heq⟩ := List.append_of_mem he
  exact hrefresh (((Run.traced hstd run).issued before e after heq).refresh href)

end Controller

open Controller in
/-- `DDR4` has a table for `translate` that is two entries short: a refresh that is injected powers its
rank down instead, and no run ever refreshes. -/
theorem DDR4.refresh_never_issued (org : DDR4.Org) (speed : DDR4.Speed) {channels ranks : Nat}
    (hchannels : channels ≠ 0) (hranks : ranks ≠ 0) {scheduler : SchedulerType}
    {h : List (Controller × Act)} {c : Controller}
    (run : Run (DDR4.spec org speed channels ranks) scheduler id h c) :
    ∀ e ∈ commands h, e.cmd ≠ .REF :=
  commands_no_refresh (DDR4.standard org speed hchannels hranks) (fun heq => by cases heq) run

open Controller in
theorem DDR4.refresh_never_issued_conflicting : ∃ h c,
    Run (DDR4.spec .DDR4_4Gb_x8 .DDR4_2400R 1 1) .FRFCFS 0 h c ∧ (commands h).length = 3 ∧
    ∀ e ∈ commands h, e.cmd ≠ .REF := by
  have hrun : ((reading conflicting 40).foldlM (play (DDR4.spec .DDR4_4Gb_x8 .DDR4_2400R 1 1))
      ([], init (DDR4.spec .DDR4_4Gb_x8 .DDR4_2400R 1 1) .FRFCFS 0)).map
      (fun p => (commands p.1).length) = some 3 := by decide +kernel
  obtain ⟨⟨h, c⟩, hp, hlength⟩ := Option.map_eq_some_iff.mp hrun
  have run : Run (DDR4.spec .DDR4_4Gb_x8 .DDR4_2400R 1 1) .FRFCFS 0 h c := Run.play (fun req hreq => by
    have hmem := mem_reading hreq
    simp only [conflicting, List.mem_cons, List.not_mem_nil, or_false] at hmem
    rcases hmem with rfl | rfl <;> exact readAt_incoming (by decide) (by decide) (by decide) _) hp
  exact ⟨h, c, run, hlength,
    DDR4.refresh_never_issued .DDR4_4Gb_x8 .DDR4_2400R (by decide) (by decide) run⟩

end OnnxSim.Ram
