import Amethyst.Installer.FatEntry
import Mathlib.Data.Finset.Card
import Mathlib.Data.Nat.Find

/-!
# Amethyst.Installer.FatChain

How long the two loops of `fat12_read_entry` run. Neither has a counter: the first one follows the
chain to an end mark, the second one leaves after its first pass.

The decoder extends a sign bit, so a cluster of the chain after the first is below 0x80 or from
0xF80 on (`nextCluster_range`). A chain that does not come back to a cluster is short
(`Acyclic.endsAfter`); one that does never ends (`EndsAfter.acyclic`).
-/

namespace Amethyst
namespace Installer

/-- The chain comes to an end mark before it comes back to a cluster. -/
def Acyclic (g : Fat12) (fats : Word) (m : Mem 32) (start : Cluster) : Prop :=
  ∀ i j, i < j → (∀ k ≤ j, chain g fats m start k < 0xFF8) →
    chain g fats m start i ≠ chain g fats m start j

/-- The first cluster, those below 0x80, and those from 0xF80 up to the end marks. -/
def longestChain : Nat := 1 + (0x80 + 0x78)

/-- The 12-bit entries of one FAT. -/
def Fat12.entries (g : Fat12) : Nat := 2 * (g.bytesPerSector.toNat * g.sectorPerFat.toNat) / 3

/-- The first loop of `fat12_read_entry` leaves after `n` passes. -/
def StopsAfter (disk : Disk) (fats : Word) (start : Cluster) (w : World) (n : Nat) : Prop :=
  ∀ fuel, countClusters disk fats fuel start 0 w =
    if n < fuel then some (BitVec.ofNat 32 n, w) else none

/-! ## The clusters of a chain -/

theorem nextCluster_range (g : Fat12) (fats : Word) (m : Mem 32) (c : Cluster) :
    nextCluster g fats m c < 0x80 ∨ 0xF80 ≤ nextCluster g fats m c := by
  have heven : ∀ a : BitVec 8, (a.signExtend 12).setWidth 16 < (0x80 : BitVec 16) ∨
      (0xF80 : BitVec 16) ≤ (a.signExtend 12).setWidth 16 := by decide +kernel
  have hodd : ∀ a : BitVec 4, a.signExtend 16 < (0x80 : BitVec 16) ∨
      (0xF80 : BitVec 16) ≤ a.signExtend 16 := by decide
  simp only [nextCluster]
  split
  · rw [odd_value]
    exact hodd _
  · rw [even_value]
    exact heven _

section

variable {g : Fat12} {fats : Word} {m : Mem 32} {start : Cluster}

theorem chain_succ (k : Nat) :
    chain g fats m start (k + 1) = nextCluster g fats m (chain g fats m start k) := by
  simp only [chain, Function.iterate_succ_apply']

theorem chain_add (k l : Nat) :
    chain g fats m start (k + l) = chain g fats m (chain g fats m start l) k := by
  simp only [chain, Function.iterate_add_apply]

/-- The clusters that a chain can have after its first one. -/
def laterClusters : Finset Nat :=
  Finset.range 0x80 ∪ (Finset.range 0x78).image (0xF80 + ·)

theorem card_laterClusters : laterClusters.card < longestChain := by
  have h1 : laterClusters.card ≤ _ := Finset.card_union_le _ _
  have h2 := Finset.card_image_le (s := Finset.range 0x78) (f := (0xF80 + ·))
  rw [Finset.card_range] at h1 h2
  simp only [longestChain]
  omega

theorem chain_mem_laterClusters {k : Nat} (h : chain g fats m start (k + 1) < 0xFF8) :
    (chain g fats m start (k + 1)).toNat ∈ laterClusters := by
  have hrange := nextCluster_range g fats m (chain g fats m start k)
  rw [← chain_succ] at hrange
  simp only [laterClusters, Finset.mem_union, Finset.mem_range, Finset.mem_image]
  cases hrange with
  | inl hlt => exact .inl hlt
  | inr hle =>
    refine .inr ⟨(chain g fats m start (k + 1)).toNat - 0xF80, ?_, ?_⟩
    · bv_omega
    · bv_omega

/-- A chain that does not come back to a cluster ends. There are fewer clusters that it can have
after the first than steps up to `longestChain`. -/
theorem Acyclic.endsAfter (h : Acyclic g fats m start) : ∃ n ≤ longestChain, EndsAfter g fats m start n := by
  have hex : ∃ n, n ≤ longestChain ∧ 0xFF8 ≤ chain g fats m start n := by
    by_contra hno
    have hlive : ∀ k ≤ longestChain, chain g fats m start k < 0xFF8 := fun k hk =>
      BitVec.not_le.mp fun hle => hno ⟨k, hk, hle⟩
    have hcard : laterClusters.card < (Finset.range longestChain).card := by
      rw [Finset.card_range]
      exact card_laterClusters
    obtain ⟨i, hi, j, hj, hne, he⟩ := Finset.exists_ne_map_eq_of_card_lt_of_maps_to hcard
      (f := fun k => (chain g fats m start (k + 1)).toNat) fun k hk =>
        chain_mem_laterClusters (hlive _ (Finset.mem_range.mp hk))
    have he' := BitVec.eq_of_toNat_eq he
    rw [Finset.mem_range] at hi hj
    rcases Nat.lt_or_gt_of_ne hne with hij | hij
    · exact h (i + 1) (j + 1) (by omega) (fun k hk => hlive k (by omega)) he'
    · exact h (j + 1) (i + 1) (by omega) (fun k hk => hlive k (by omega)) he'.symm
  have hleast := Nat.find_spec hex
  refine ⟨Nat.find hex, hleast.1, ⟨fun k hk => ?_, hleast.2⟩⟩
  exact BitVec.not_le.mp fun hle => Nat.find_min hex hk ⟨Nat.le_trans (Nat.le_of_lt hk) hleast.1, hle⟩

/-- A chain that ends never comes back: it would come back forever. -/
theorem EndsAfter.acyclic {n : Nat} (h : EndsAfter g fats m start n) : Acyclic g fats m start := by
  intro i j hij hlive he
  have hjn : j < n := by
    by_contra hle
    exact BitVec.not_lt.mpr h.ended (hlive n (Nat.le_of_not_lt hle))
  have hback : chain g fats m start (n - j + i) = chain g fats m start n := by
    rw [chain_add, he, ← chain_add, Nat.sub_add_cancel (Nat.le_of_lt hjn)]
  have hlt := h.before (n - j + i) (by omega)
  rw [hback] at hlt
  exact BitVec.not_lt.mpr h.ended hlt

theorem EndsAfter.le_longestChain {n : Nat} (h : EndsAfter g fats m start n) : n ≤ longestChain := by
  obtain ⟨k, hk, h'⟩ := h.acyclic.endsAfter
  by_contra hlt
  exact absurd h'.ended (BitVec.not_le.mpr (h.before k (by omega)))

theorem EndsAfter.length_unique {n k : Nat} (h : EndsAfter g fats m start n)
    (h' : EndsAfter g fats m start k) : n = k := by
  rcases Nat.lt_trichotomy n k with hlt | heq | hgt
  · exact absurd h.ended (BitVec.not_le.mpr (h'.before n hlt))
  · exact heq
  · exact absurd h'.ended (BitVec.not_le.mpr (h.before k hgt))

end

/-! ## The two loops -/

section

variable {disk : Disk} {fats : Word} (hfats : fats ≠ 0) {w : World}
include hfats

/-- A result of the first loop comes from an end mark. By induction on the tests. -/
theorem endsAfter_of_countClusters : ∀ (fuel : Nat) (start : Cluster) (size : Word) {r : Word × World},
    countClusters disk fats fuel start size w = some r →
    ∃ n < fuel, EndsAfter disk.info fats w.mem start n := by
  intro fuel
  induction fuel with
  | zero =>
    intro start size r h
    cases h
  | succ fuel ih =>
    intro start size r h
    by_cases hlive : start < 0xFF8
    · simp only [countClusters, if_pos hlive, fat12NextCluster_some hfats] at h
      obtain ⟨n, hn, hend⟩ := ih _ _ h
      refine ⟨n + 1, by omega, ⟨fun k hk => ?_, hend.ended⟩⟩
      cases k with
      | zero => exact hlive
      | succ k => exact hend.before k (by omega)
    · exact ⟨0, Nat.succ_pos fuel, ⟨fun k hk => absurd hk (Nat.not_lt_zero k), BitVec.not_lt.mp hlive⟩⟩

theorem countClusters_some {fuel : Nat} {start : Cluster} {size : Word} {w' : World}
    (h : countClusters disk fats fuel start 0 w = some (size, w')) :
    ∃ n, EndsAfter disk.info fats w.mem start n ∧ size = BitVec.ofNat 32 n ∧ w' = w := by
  obtain ⟨n, hn, hend⟩ := endsAfter_of_countClusters hfats _ _ _ h
  rw [countClusters_spec hfats n start 0 fuel hend hn] at h
  cases h
  exact ⟨n, hend, BitVec.zero_add _, rfl⟩

theorem stopsAfter_iff {start : Cluster} {n : Nat} :
    StopsAfter disk fats start w n ↔ EndsAfter disk.info fats w.mem start n := by
  constructor
  · intro h
    have hsome := h (n + 1)
    rw [if_pos (Nat.lt_succ_self n)] at hsome
    obtain ⟨k, hk, hend⟩ := endsAfter_of_countClusters hfats _ _ _ hsome
    have hle : n < k + 1 := by
      by_contra hlt
      have hnone := h (k + 1)
      rw [if_neg hlt, countClusters_spec hfats k start 0 (k + 1) hend (Nat.lt_succ_self k)] at hnone
      cases hnone
    have hkn : k = n := by omega
    exact hkn ▸ hend
  · intro hend fuel
    by_cases hlt : n < fuel
    · rw [if_pos hlt, countClusters_spec hfats n start 0 fuel hend hlt]
      exact congrArg (fun x => some (x, w)) (BitVec.zero_add _)
    · rw [if_neg hlt]
      cases h : countClusters disk fats fuel start 0 w with
      | none => rfl
      | some r =>
        obtain ⟨k, hk, hend'⟩ := endsAfter_of_countClusters hfats _ _ _ h
        exact absurd hend'.ended (BitVec.not_le.mpr (hend.before k (by omega)))

/-- The first loop ends exactly on a chain that does not come back to a cluster. -/
theorem acyclic_iff_stops {start : Cluster} :
    Acyclic disk.info fats w.mem start ↔ ∃ n, StopsAfter disk fats start w n := by
  constructor
  · intro h
    obtain ⟨n, -, hend⟩ := h.endsAfter
    exact ⟨n, (stopsAfter_iff hfats).mpr hend⟩
  · intro h
    obtain ⟨n, hstop⟩ := h
    exact ((stopsAfter_iff hfats).mp hstop).acyclic

theorem StopsAfter.le_longestChain {start : Cluster} {n : Nat} (h : StopsAfter disk fats start w n) :
    n ≤ longestChain :=
  ((stopsAfter_iff hfats).mp h).le_longestChain

end

theorem World.free_reads {w w' : World} {ptr : Word} (h : w.free ptr = some w') :
    w'.reads = w.reads := by
  obtain ⟨s, -, rfl⟩ := Option.map_eq_some_iff.mp h
  rfl

/-- The second loop asks for the first cluster, if the chain has an end and there is a block for it. -/
theorem fat12ReadEntry_request {dr : DiskRead} {fuel : Nat} {pOutput output fats : Word} {disk : Disk}
    {start : Cluster} {w w' : World}
    (h : fat12ReadEntry dr fuel pOutput (some disk) fats start w = some (output, w')) :
    w'.reads = w.reads ∨ ∃ n ptr, EndsAfter disk.info fats w.mem start n ∧
      (w.malloc (BitVec.ofNat 32 (n * disk.info.clusterBytes))).2.state.err = .no ∧
      w'.reads = w.reads ++ [⟨disk.id, ptr, disk.info.sectorPerCluster.setWidth 16,
        clusterToLba disk.info start⟩] := by
  by_cases hguard : fats = 0 ∨ 0xFF8 ≤ start
  · simp only [fat12ReadEntry, if_pos hguard] at h
    cases h
    exact .inl rfl
  have hfats : fats ≠ 0 := fun h0 => hguard (.inl h0)
  cases hcount : countClusters disk fats fuel start 0 w with
  | none =>
    simp only [fat12ReadEntry, if_neg hguard, hcount] at h
    cases h
  | some r =>
    obtain ⟨size, w₀⟩ := r
    obtain ⟨n, hend, rfl, rfl⟩ := countClusters_some hfats hcount
    obtain ⟨ptr, w₁, e⟩ : ∃ ptr w₁,
        w₀.malloc (BitVec.ofNat 32 (n * disk.info.clusterBytes)) = (ptr, w₁) := ⟨_, _, rfl⟩
    have hreads : w₁.reads = w₀.reads := by
      cases e
      rfl
    have hsize : w₀.malloc (disk.info.entrySize (BitVec.ofNat 32 n)) = (ptr, w₁) := by
      rw [entrySize_eq]
      exact e
    rw [fat12ReadEntry_counted hguard hcount hsize] at h
    by_cases herr : w₁.state.err ≠ .no
    · rw [if_pos herr] at h
      cases h
      exact .inl hreads
    rw [if_neg herr] at h
    refine .inr ⟨n, ptr, hend, by rw [e]; exact not_not.mp herr, ?_⟩
    rw [← hreads]
    split at h
    · obtain ⟨w₂, hfree, he⟩ := Option.map_eq_some_iff.mp h
      cases he
      exact World.free_reads hfree
    · cases h
      rfl

/-- It asks for one read at most. -/
theorem fat12ReadEntry_reads {dr : DiskRead} {fuel : Nat} {pOutput output fats : Word} {disk : Disk}
    {start : Cluster} {w w' : World}
    (h : fat12ReadEntry dr fuel pOutput (some disk) fats start w = some (output, w')) :
    w'.reads.length ≤ w.reads.length + 1 := by
  rcases fat12ReadEntry_request h with he | ⟨n, ptr, -, -, he⟩
  · rw [he]
    exact Nat.le_succ _
  · rw [he, List.length_append, List.length_singleton]

/-- Both loops of `fat12_read_entry` stop exactly on a chain that does not come back to a cluster:
the first one after at most `longestChain` passes, which is at most the number of entries of any FAT
that has so many, the second one after a single pass and read. -/
theorem fat12ReadEntry_stops {disk : Disk} {fats : Word} (hfats : fats ≠ 0) {start : Cluster}
    (_hstart : start < 0xFF8) (w : World) :
    (Acyclic disk.info fats w.mem start ↔ ∃ n, StopsAfter disk fats start w n) ∧
    (∀ n, StopsAfter disk fats start w n →
      n ≤ longestChain ∧ (longestChain ≤ disk.info.entries → n ≤ disk.info.entries)) ∧
    ∀ dr fuel pOutput output w',
      fat12ReadEntry dr fuel pOutput (some disk) fats start w = some (output, w') →
      w'.reads.length ≤ w.reads.length + 1 := by
  refine ⟨acyclic_iff_stops hfats, fun n hstop => ?_, fun dr fuel pOutput output w' h => ?_⟩
  · have hle := hstop.le_longestChain hfats
    exact ⟨hle, Nat.le_trans hle⟩
  · exact fat12ReadEntry_reads h

theorem fat12ReadEntry_stops_two :
    (2 : Cluster) < 0xFF8 ∧
    (Acyclic floppy 0x00090000 twoFilesWorld.mem 2 ↔
      ∃ n, StopsAfter ⟨0, floppy⟩ 0x00090000 2 twoFilesWorld n) ∧
    (∀ n, StopsAfter ⟨0, floppy⟩ 0x00090000 2 twoFilesWorld n →
      n ≤ longestChain ∧ (longestChain ≤ floppy.entries → n ≤ floppy.entries)) ∧
    ∀ dr fuel pOutput output w', fat12ReadEntry dr fuel pOutput (some ⟨0, floppy⟩) 0x00090000 2
      twoFilesWorld = some (output, w') → w'.reads.length ≤ twoFilesWorld.reads.length + 1 :=
  ⟨by decide, @fat12ReadEntry_stops ⟨0, floppy⟩ 0x00090000 (by decide) 2 (by decide) twoFilesWorld⟩

/-- Cluster 2 points to itself. -/
def selfWorld : World := { World.init with mem := tableMem 0x00090000 [0xFF0, 0xFFF, 0x002] }

/-- A FAT of one sector of two bytes. Clusters 0 and 2 form a chain. -/
def twoBytes : Fat12 := { floppy with bytesPerSector := 2, sectorPerFat := 1 }

def twoBytesWorld : World := { World.init with mem := fun x => if x = 0x00090000 then 2 else 0xF8 }

/-- On a cluster that points to itself the first loop goes round for ever; on `twoBytes` it takes two
steps, where the FAT has one entry. -/
theorem fat12ReadEntry_self_chain_endless :
    ((2 : Cluster) < 0xFF8 ∧ (0x00090000 : Word) ≠ 0 ∧
      ∀ fuel dr pOutput, countClusters ⟨0, floppy⟩ 0x00090000 fuel 2 0 selfWorld = none ∧
        fat12ReadEntry dr fuel pOutput (some ⟨0, floppy⟩) 0x00090000 2 selfWorld = none) ∧
    twoBytes.entries = 1 ∧ StopsAfter ⟨0, twoBytes⟩ 0x00090000 0 twoBytesWorld 2 := by
  have hnext : nextCluster floppy 0x00090000 selfWorld.mem 2 = 2 := by decide
  have hcount : ∀ fuel size, countClusters ⟨0, floppy⟩ 0x00090000 fuel 2 size selfWorld = none := by
    intro fuel
    induction fuel with
    | zero => exact fun _ => rfl
    | succ fuel ih =>
      intro size
      rw [countClusters, if_pos (by decide), fat12NextCluster_some (by decide)]
      simp only [hnext]
      exact ih _
  refine ⟨⟨by decide, by decide, fun fuel dr pOutput => ⟨hcount fuel 0, ?_⟩⟩, by decide, ?_⟩
  · simp only [fat12ReadEntry, hcount]
    rfl
  · exact (stopsAfter_iff (by decide)).mpr ⟨by decide, by decide⟩

end Installer
end Amethyst
