import Amethyst.Installer.FatDir

/-!
# Amethyst.Installer.DirListing

Which slots the two passes of `fat12_dir_open` select. A slot is deleted if its first byte is `0xE5`,
but a `char` is never equal to that, so only volume labels are left out.

`fat12DirOpen_lists_iff`: the listing is what the directory holds exactly when it holds something and
no slot in it is deleted.
-/

namespace Amethyst
namespace Installer

/-! ## Slots -/

/-- The first `k` slots, in the order of the disk. -/
def slots : Nat → Word → List Word
  | 0, _ => []
  | k + 1, dir => dir :: slots k (dir + 32)

def slotAt (dir : Word) (i : Nat) : Word := dir + BitVec.ofNat 32 (32 * i)

/-- The first end marker is the `k`-th slot. -/
structure EndsAt (m : Mem 32) (dir : Word) (k : Nat) : Prop where
  used : ∀ i < k, m (slotAt dir i) ≠ 0
  marker : m (slotAt dir k) = 0

/-- The slots that are neither deleted nor a volume label. -/
def liveSlots (m : Mem 32) (k : Nat) (dir : Word) : List Word :=
  (slots k dir).filter fun slot => m slot ≠ 0xE5 ∧ ¬ isVolumeLabel m slot

/-- The slots that are not a volume label. -/
def listedSlots (m : Mem 32) (k : Nat) (dir : Word) : List Word :=
  (slots k dir).filter fun slot => ¬ isVolumeLabel m slot

@[simp] theorem slotAt_zero (dir : Word) : slotAt dir 0 = dir := BitVec.add_zero dir

theorem slotAt_succ (dir : Word) (i : Nat) : slotAt dir (i + 1) = slotAt (dir + 32) i := by
  rw [slotAt, slotAt, show (32 : Word) = BitVec.ofNat 32 32 from rfl, add_add_ofNat, Nat.mul_succ,
    Nat.add_comm]

theorem length_slots (k : Nat) : ∀ dir, (slots k dir).length = k := by
  induction k with
  | zero => exact fun _ => rfl
  | succ k ih => exact fun dir => by simp [slots, ih]

section

variable {m : Mem 32} {dir : Word} {k : Nat}

theorem EndsAt.tail (h : EndsAt m dir (k + 1)) : EndsAt m (dir + 32) k where
  used i hi := by
    rw [← slotAt_succ]
    exact h.used (i + 1) (by omega)
  marker := by
    rw [← slotAt_succ]
    exact h.marker

theorem endsAt_zero : EndsAt m dir 0 ↔ m dir = 0 := by
  constructor
  · intro h
    simpa using h.marker
  · intro h
    exact ⟨fun i hi => absurd hi (Nat.not_lt_zero i), by simpa using h⟩

theorem endsAt_succ (h : m dir ≠ 0) : EndsAt m dir (k + 1) ↔ EndsAt m (dir + 32) k := by
  constructor
  · intro h'
    exact h'.tail
  · intro h'
    refine ⟨fun i hi => ?_, by rw [slotAt_succ]; exact h'.marker⟩
    cases i with
    | zero => simpa using h
    | succ i =>
      rw [slotAt_succ]
      exact h'.used i (by omega)

theorem listedSlots_succ (k : Nat) : listedSlots m (k + 1) dir =
    if isVolumeLabel m dir then listedSlots m k (dir + 32) else dir :: listedSlots m k (dir + 32) := by
  simp only [listedSlots, slots, List.filter_cons]
  by_cases h : isVolumeLabel m dir <;> simp [h]

theorem length_listedSlots_le (k : Nat) : (listedSlots m k dir).length ≤ k := by
  have h := List.length_filter_le (fun slot => decide ¬ isVolumeLabel m slot) (slots k dir)
  rwa [length_slots] at h

/-- A live slot is one of those that are listed. -/
theorem liveSlots_eq : liveSlots m k dir =
    (listedSlots m k dir).filter fun slot => m slot ≠ 0xE5 := by
  rw [liveSlots, listedSlots, List.filter_filter]
  congr 1
  funext slot
  simp

/-- Both select the same slots exactly when none that is no label is deleted. -/
theorem length_liveSlots_iff : (liveSlots m k dir).length = (listedSlots m k dir).length ↔
    ∀ slot ∈ slots k dir, m slot = 0xE5 → isVolumeLabel m slot := by
  rw [liveSlots_eq, List.length_filter_eq_length_iff]
  simp only [listedSlots, List.mem_filter, decide_eq_true_eq]
  constructor
  · intro h slot hs hdel
    by_contra hlabel
    exact h slot ⟨hs, hlabel⟩ hdel
  · intro h slot hs hdel
    exact hs.2 (h slot hs.1 hdel)

theorem liveSlots_eq_listed (h : (liveSlots m k dir).length = (listedSlots m k dir).length) :
    liveSlots m k dir = listedSlots m k dir := by
  rw [liveSlots_eq] at h ⊢
  exact List.filter_sublist.eq_of_length h

end

/-! ## The counting pass -/

/-- The pass counts the slots that are listed. By induction on the slots up to the marker. -/
theorem countEntries_spec {m : Mem 32} : ∀ (k n : Nat) (dir count : Word), EndsAt m dir k → k < n →
    countEntries m n dir count = some (count + BitVec.ofNat 32 (listedSlots m k dir).length) := by
  intro k
  induction k with
  | zero =>
    intro n dir count h hn
    obtain ⟨n, rfl⟩ : ∃ l, n = l + 1 := ⟨n - 1, by omega⟩
    rw [countEntries, if_pos (endsAt_zero.mp h)]
    simp [listedSlots, slots]
  | succ k ih =>
    intro n dir count h hn
    obtain ⟨n, rfl⟩ : ∃ l, n = l + 1 := ⟨n - 1, by omega⟩
    have hused : m dir ≠ 0 := by simpa using h.used 0 (Nat.succ_pos k)
    rw [countEntries, if_neg hused, if_neg (signExtend_ne_deleted _), ih n _ _ h.tail (by omega),
      listedSlots_succ]
    by_cases hl : isVolumeLabel m dir
    · simp [hl]
    · have hone : (1 : Word) = BitVec.ofNat 32 1 := rfl
      simp only [hl, Bool.false_eq_true, if_false, List.length_cons]
      rw [hone, add_add_ofNat, Nat.add_comm]

/-- A pass that comes to an end has found a marker. -/
theorem endsAt_of_count {m : Mem 32} : ∀ (n : Nat) (dir count : Word) {c : Word},
    countEntries m n dir count = some c → ∃ k < n, EndsAt m dir k := by
  intro n
  induction n with
  | zero =>
    intro dir count c h
    cases h
  | succ n ih =>
    intro dir count c h
    by_cases hzero : m dir = 0
    · exact ⟨0, Nat.succ_pos n, endsAt_zero.mpr hzero⟩
    · rw [countEntries, if_neg hzero, if_neg (signExtend_ne_deleted _)] at h
      obtain ⟨k, hk, hend⟩ := ih _ _ h
      exact ⟨k + 1, by omega, (endsAt_succ hzero).mpr hend⟩

/-! ## The filling pass -/

/-- A `dir_entry_t`: its type and its name. -/
structure DirEntryAt (m : Mem 32) (a : Word) (type : DirEntryType) (name : List Byte) : Prop where
  type : bytes m a 4 = [type.value, 0, 0, 0]
  name : bytes m (a + 4) (name.length + 1) = name ++ [0]

/-- Records side by side from `a` on. -/
def Listing (m : Mem 32) : Word → List (DirEntryType × List Byte) → Prop
  | _, [] => True
  | a, r :: records => DirEntryAt m a r.1 r.2 ∧ Listing m (a + dirEntrySize) records

/-- The type and the display name of a slot. -/
def record (m : Mem 32) (slot : Word) : DirEntryType × List Byte :=
  (if isSubdirectory m slot then .dir else .file, clusterfilename m slot)

section

variable {m m' : Mem 32} {a : Word} {n : Nat}

theorem bytes_congr (h : ∀ i < n, m' (a + BitVec.ofNat 32 i) = m (a + BitVec.ofNat 32 i)) :
    bytes m' a n = bytes m a n := by
  refine List.map_congr_left fun i hi => h i ?_
  simpa using hi

theorem bytes_storeBytes (bs : List Byte) (h : bs.length ≤ 2 ^ 32) :
    bytes (storeBytes m a bs) a bs.length = bs := by
  apply List.ext_getElem
  · simp [bytes]
  · intro i h1 h2
    have hi := Mem.fill_holds (m := m) (a := a) (f := fun i => bs.getD i 0) h i h2
    simp only [bytes, List.getElem_map, List.getElem_range, storeBytes, hi]
    simp [List.getElem?_eq_getElem h2]

theorem storeBytes_frame {bs : List Byte} {x : Word} (h : ¬ InRange a bs.length x) :
    storeBytes m a bs x = m x :=
  Mem.fill_frame h

/-- Eight bytes, a point and three bytes. -/
theorem length_clusterfilename_le (slot : Word) : (clusterfilename m slot).length ≤ 12 := by
  have h1 := (List.takeWhile_prefix (l := bytes m slot 8) (· ≠ 0x20)).length_le
  have h2 := (List.takeWhile_prefix (l := bytes m (slot + 8) 3) (· ≠ 0x20)).length_le
  have h3 : (if m (slot + 8) ≠ 0x20 then [(0x2E : Byte)] else []).length ≤ 1 := by split <;> simp
  simp only [bytes, List.length_map, List.length_range] at h1 h2
  simp only [clusterfilename, bytes, List.length_append]
  omega

theorem DirEntryAt.congr {type : DirEntryType} {name : List Byte} (h : DirEntryAt m a type name)
    (hname : name.length ≤ 12)
    (he : ∀ i < 20, m' (a + BitVec.ofNat 32 i) = m (a + BitVec.ofNat 32 i)) :
    DirEntryAt m' a type name where
  type := (bytes_congr fun i hi => he i (by omega)).trans h.type
  name := by
    refine (bytes_congr fun i hi => ?_).trans h.name
    rw [show (4 : Word) = BitVec.ofNat 32 4 from rfl, add_add_ofNat]
    exact he (4 + i) (by omega)

end

section

variable {m m' : Mem 32} {slot : Word}
  (h : ∀ i < 32, m' (slot + BitVec.ofNat 32 i) = m (slot + BitVec.ofNat 32 i))
include h

theorem isVolumeLabel_congr : isVolumeLabel m' slot = isVolumeLabel m slot :=
  congrArg (·.getLsbD 3) (h 11 (by omega))

theorem isSubdirectory_congr : isSubdirectory m' slot = isSubdirectory m slot :=
  congrArg (·.getLsbD 4) (h 11 (by omega))

theorem clusterfilename_congr : clusterfilename m' slot = clusterfilename m slot := by
  have hname : bytes m' slot 8 = bytes m slot 8 := bytes_congr fun i hi => h i (by omega)
  have hext : bytes m' (slot + 8) 3 = bytes m (slot + 8) 3 := by
    refine bytes_congr fun i hi => ?_
    rw [show (8 : Word) = BitVec.ofNat 32 8 from rfl, add_add_ofNat]
    exact h (8 + i) (by omega)
  have h8 : m' (slot + 8) = m (slot + 8) := h 8 (by omega)
  rw [clusterfilename, hname, hext, h8, clusterfilename]

theorem record_congr : record m' slot = record m slot := by
  rw [record, isSubdirectory_congr h, clusterfilename_congr h, record]

end

/-- Nothing but the record is stored. -/
theorem fat12CreateDirEntry_spec {slot entry : Word} {w : World} (hslot : slot ≠ 0)
    (hentry : entry ≠ 0) (hapart : ∀ i < 32, ¬ InRange entry 20 (slot + BitVec.ofNat 32 i)) :
    ∃ w', fat12CreateDirEntry slot entry w = w' ∧ w'.state = w.state ∧
      (∀ x, ¬ InRange entry 20 x → w'.mem x = w.mem x) ∧
      DirEntryAt w'.mem entry (record w.mem slot).1 (record w.mem slot).2 := by
  have hguard : ¬ (slot = 0 ∨ entry = 0) := fun h => h.elim hslot hentry
  let name := clusterfilename w.mem slot
  let m := storeBytes w.mem (entry + 4) (name ++ [0])
  let type := (record w.mem slot).1
  let m' := storeBytes m entry [type.value, 0, 0, 0]
  have hlen : name.length ≤ 12 := length_clusterfilename_le slot
  have hname : (name ++ [0]).length = name.length + 1 := by simp
  have hm : ∀ x, ¬ InRange entry 20 x → m x = w.mem x := by
    intro x hx
    refine storeBytes_frame fun h => hx ?_
    rw [hname, show (4 : Word) = BitVec.ofNat 32 4 from rfl] at h
    exact (h.of_add (by omega)).mono (by omega)
  have hrun : fat12CreateDirEntry slot entry w = { w with mem := m' } := by
    simp only [fat12CreateDirEntry, if_neg hguard, fat12ClusterfilenameToFilename, if_neg hslot]
    rw [isSubdirectory_congr fun i hi => hm _ (hapart i hi)]
    rfl
  refine ⟨_, hrun, rfl, fun x hx => ?_, bytes_storeBytes [type.value, 0, 0, 0] (by simp), ?_⟩
  · rw [← hm x hx]
    exact storeBytes_frame fun h => hx (h.mono (by simp))
  · show bytes m' (entry + 4) (name.length + 1) = name ++ [0]
    rw [← hname]
    refine (bytes_congr fun i hi => storeBytes_frame ?_).trans (bytes_storeBytes _ (by omega))
    rw [show (4 : Word) = BitVec.ofNat 32 4 from rfl, add_add_ofNat, inRange_add (by omega)]
    simp

/-- Up to its end marker the directory is as in `m`, and shares no byte with the `n` records from `a`
on that are still to come. -/
structure Untouched (m : Mem 32) (k n : Nat) (entry a : Word) (w : World) : Prop where
  agree : ∀ x, InRange entry (32 * k + 1) x → w.mem x = m x
  apart : ∀ x, InRange entry (32 * k + 1) x → ¬ InRange a (20 * n) x
  entry : ¬ InRange entry (32 * k + 1) 0
  listing : ¬ InRange a (20 * n) 0

section

variable {m : Mem 32} {k n : Nat} {entry a : Word} {w : World}

theorem inRange_next {x : Word} (hk : k + 1 < 2 ^ 27) (h : InRange (entry + 32) (32 * k + 1) x) :
    InRange entry (32 * (k + 1) + 1) x := by
  have hin : InRange entry (32 + (32 * k + 1)) x := InRange.of_add h (by omega)
  exact hin.mono (by omega)

theorem inRange_records {x : Word} (hn : n < 2 ^ 27) (h : InRange (a + dirEntrySize) (20 * n) x) :
    InRange a (20 * (n + 1)) x := by
  have hin : InRange a (20 + 20 * n) x := InRange.of_add h (by omega)
  exact hin.mono (by omega)

theorem Untouched.skip (h : Untouched m (k + 1) n entry a w) (hk : k + 1 < 2 ^ 27) :
    Untouched m k n (entry + 32) a w where
  agree x hx := h.agree x (inRange_next hk hx)
  apart x hx := h.apart x (inRange_next hk hx)
  entry hx := h.entry (inRange_next hk hx)
  listing := h.listing

/-- The bytes of the first slot. -/
theorem Untouched.slot (h : Untouched m (k + 1) n entry a w) {i : Nat} (hi : i < 32) :
    w.mem (entry + BitVec.ofNat 32 i) = m (entry + BitVec.ofNat 32 i) ∧
      ¬ InRange a (20 * n) (entry + BitVec.ofNat 32 i) := by
  have hin : InRange entry (32 * (k + 1) + 1) (entry + BitVec.ofNat 32 i) :=
    (inRange_add (by omega)).mpr (by omega)
  exact ⟨h.agree _ hin, h.apart _ hin⟩

theorem Untouched.store {w' : World} (h : Untouched m (k + 1) (n + 1) entry a w)
    (hk : k + 1 < 2 ^ 27) (hn : n ≤ k) (hframe : ∀ x, ¬ InRange a 20 x → w'.mem x = w.mem x) :
    Untouched m k n (entry + 32) (a + dirEntrySize) w' := by
  have hrest : ∀ x, InRange (a + dirEntrySize) (20 * n) x → InRange a (20 * (n + 1)) x :=
    fun x => inRange_records (by omega)
  refine ⟨fun x hx => ?_, fun x hx hx' => ?_, fun hx => h.entry (inRange_next hk hx),
    fun hx => h.listing (hrest _ hx)⟩
  · rw [hframe x fun hx' => h.apart x (inRange_next hk hx) (hx'.mono (by omega))]
    exact h.agree x (inRange_next hk hx)
  · exact h.apart x (inRange_next hk hx) (hrest x hx')

end

theorem Untouched.used {m : Mem 32} {k n : Nat} {entry a : Word} {w : World}
    (h : Untouched m (k + 1) n entry a w) (hend : EndsAt m entry (k + 1)) : w.mem entry ≠ 0 := by
  have h0 := hend.used 0 (Nat.succ_pos k)
  have heq := (h.slot (i := 0) (by omega)).1
  simp only [slotAt_zero, BitVec.ofNat_eq_ofNat, BitVec.add_zero] at h0 heq
  rwa [heq]

/-- The records are stored from `a` on, and nothing else. -/
structure Filled (a : Word) (records : List (DirEntryType × List Byte)) (w w' : World) : Prop where
  state : w'.state = w.state
  frame : ∀ x, ¬ InRange a (20 * records.length) x → w'.mem x = w.mem x
  listing : Listing w'.mem a records

/-- One record, and then those behind it. -/
theorem Filled.cons {a : Word} {type : DirEntryType} {name : List Byte}
    {records : List (DirEntryType × List Byte)} {w w₁ w' : World} (hstate : w₁.state = w.state)
    (hframe : ∀ x, ¬ InRange a 20 x → w₁.mem x = w.mem x) (hrecord : DirEntryAt w₁.mem a type name)
    (hname : name.length ≤ 12) (hlen : records.length < 2 ^ 27)
    (h : Filled (a + dirEntrySize) records w₁ w') : Filled a ((type, name) :: records) w w' where
  state := h.state.trans hstate
  frame x hx := by
    rw [List.length_cons] at hx
    rw [h.frame x fun hin => hx (inRange_records hlen hin)]
    exact hframe x fun hin => hx (hin.mono (by omega))
  listing := by
    have hfit : 20 + 20 * records.length ≤ 2 ^ 32 := by omega
    exact ⟨hrecord.congr hname fun i hi => h.frame _ (not_inRange_of_lt hi hfit), h.listing⟩

/-- The pass stores a record for each slot that is listed, in their order. By induction on the slots up
to the marker; `a` is where the next record goes. -/
theorem fillEntries_spec {m : Mem 32} {listing total : Word} : ∀ (k n : Nat) (entry count a : Word)
    (w : World), listing + count * dirEntrySize = a → EndsAt m entry k → k < n → k < 2 ^ 27 →
    count + BitVec.ofNat 32 (listedSlots m k entry).length = total →
    Untouched m k (listedSlots m k entry).length entry a w →
    ∃ w', fillEntries listing total n entry count w = some w' ∧
      Filled a ((listedSlots m k entry).map (record m)) w w' := by
  intro k
  induction k with
  | zero =>
    intro n entry count a w _ hend hn _ _ hu
    obtain ⟨n, rfl⟩ : ∃ l, n = l + 1 := ⟨n - 1, by omega⟩
    have hin : InRange entry (32 * 0 + 1) entry := by simp [InRange]
    have hmark : w.mem entry = 0 := (hu.agree entry hin).trans (endsAt_zero.mp hend)
    exact ⟨w, by rw [fillEntries, if_pos hmark], rfl, fun _ _ => rfl, trivial⟩
  | succ k ih =>
    intro n entry count a w ha hend hn hk hcount hu
    obtain ⟨n, rfl⟩ : ∃ l, n = l + 1 := ⟨n - 1, by omega⟩
    have hslot : ∀ i < 32, w.mem (entry + BitVec.ofNat 32 i) = m (entry + BitVec.ofNat 32 i) :=
      fun i hi => (hu.slot hi).1
    rw [fillEntries, if_neg (hu.used hend), if_neg (signExtend_ne_deleted _), isVolumeLabel_congr hslot]
    by_cases hl : isVolumeLabel m entry
    · have hlisted : listedSlots m (k + 1) entry = listedSlots m k (entry + 32) := by
        rw [listedSlots_succ, if_pos hl]
      rw [hlisted] at hcount hu ⊢
      rw [if_pos hl]
      exact ih n _ count a w ha hend.tail (by omega) (by omega) hcount (hu.skip hk)
    · have hlisted : listedSlots m (k + 1) entry = entry :: listedSlots m k (entry + 32) := by
        rw [listedSlots_succ, if_neg hl]
      rw [hlisted, List.length_cons] at hcount hu
      rw [hlisted, List.map_cons]
      have hle : (listedSlots m k (entry + 32)).length ≤ k := length_listedSlots_le k
      have hfull : count ≠ total := by
        intro he
        have hzero := BitVec.self_eq_add_right.mp (he.trans hcount.symm)
        have hlen := congrArg BitVec.toNat hzero
        rw [BitVec.toNat_ofNat, Nat.mod_eq_of_lt (by omega)] at hlen
        exact Nat.succ_ne_zero _ hlen
      have hne : entry ≠ 0 := fun h0 => hu.entry (by simp [h0, InRange])
      have hane : a ≠ 0 := fun h0 => hu.listing (by simp [h0, InRange])
      obtain ⟨w₁, e, hstate, hframe, hrecord⟩ := fat12CreateDirEntry_spec (w := w) hne hane
        fun i hi h => (hu.slot hi).2 (h.mono (by omega))
      rw [record_congr hslot] at hrecord
      rw [if_neg hl, if_neg hfull, ha, e]
      -- the next record goes behind the one that was stored
      have hnext : listing + (count + 1) * dirEntrySize = a + dirEntrySize := by
        have hone : (1 : Word) * dirEntrySize = dirEntrySize := by decide
        rw [← ha, BitVec.add_assoc, BitVec.add_mul, hone]
      have hcount' : count + 1 + BitVec.ofNat 32 (listedSlots m k (entry + 32)).length = total := by
        rw [← hcount, Nat.add_comm, BitVec.ofNat_add, BitVec.add_assoc]
        rfl
      obtain ⟨w', hfill, hfilled⟩ := ih n (entry + 32) (count + 1) (a + dirEntrySize) w₁ hnext hend.tail
        (by omega) (by omega) hcount' (hu.store hk hle hframe)
      refine ⟨w', hfill, hfilled.cons hstate hframe hrecord (length_clusterfilename_le _) ?_⟩
      rw [List.length_map]
      omega

/-- The size of a listing does not wrap. -/
theorem listing_toNat {n : Nat} (h : n < 2 ^ 27) : (BitVec.ofNat 32 n * dirEntrySize).toNat = 20 * n := by
  rw [BitVec.toNat_mul, BitVec.toNat_ofNat, dirEntrySize]
  simp
  omega

/-- No block is asked for, so `malloc` refuses it. -/
theorem World.malloc_zero_bytes (w : World) : w.malloc 0 = (0, w.setErr .invarg) := by
  simp [World.malloc, Installer.malloc, Heap.malloc, World.setErr]

section

variable {lo hi : Nat} (hlo : 0 < lo) (hhi : hi < 2 ^ 32) {w : World} (hinv : w.state.heap.Inv lo hi)
include hhi hinv

/-- No byte is in two live blocks. -/
theorem live_apart {c d : Chunk} (hc : c ∈ w.live) (hd : d ∈ w.live) (hne : c ≠ d) {x : Word}
    (hx : InRange c.start c.size.toNat x) : ¬ InRange d.start d.size.toNat x := by
  have h1 := Heap.Inv.inside hinv hc
  have h2 := Heap.Inv.inside hinv hd
  have hsep := Heap.Inv.live_sep hinv hc hd hne
  simp only [Span.Sep, Chunk.span] at hsep
  rw [inRange_iff (by omega)] at hx ⊢
  omega

include hlo

theorem live_no_null {c : Chunk} (hc : c ∈ w.live) : ¬ InRange c.start c.size.toNat 0 := by
  have h1 := Heap.Inv.inside hinv hc
  rw [inRange_iff (by omega)]
  simp
  omega

/-- Two live blocks, one with the directory as it is in `m` and one with room for the listing. -/
theorem untouched_of_live {entries size listing bytes : Word}
    (hentries : (⟨entries, size⟩ : Chunk) ∈ w.live) (hlisting : (⟨listing, bytes⟩ : Chunk) ∈ w.live)
    (hne : (⟨entries, size⟩ : Chunk) ≠ ⟨listing, bytes⟩) {m : Mem 32}
    (hm : ∀ x, InRange entries size.toNat x → w.mem x = m x) {k n : Nat} (hk : 32 * k < size.toNat)
    (hn : 20 * n ≤ bytes.toNat) : Untouched m k n entries listing w where
  agree x hx := hm x (hx.mono hk)
  apart _ hx hx' := live_apart hhi hinv hentries hlisting hne (hx.mono hk) (hx'.mono hn)
  entry hx := live_no_null hlo hhi hinv hentries (hx.mono hk)
  listing hx := live_no_null hlo hhi hinv hlisting (hx.mono hn)

/-- The filling pass, with the listing allocated beside the directory. -/
theorem fillEntries_of_live {entries size listing : Word} {m : Mem 32}
    (hentries : (⟨entries, size⟩ : Chunk) ∈ w.live)
    (hm : ∀ x, InRange entries size.toNat x → w.mem x = m x) {k : Nat} (hend : EndsAt m entries k)
    (hsize : 32 * k < size.toNat) {n : Nat} (hn : k < n)
    (hlisting : (⟨listing, BitVec.ofNat 32 (listedSlots m k entries).length * dirEntrySize⟩ : Chunk) ∈
      w.live)
    (hne : (⟨entries, size⟩ : Chunk) ≠
      ⟨listing, BitVec.ofNat 32 (listedSlots m k entries).length * dirEntrySize⟩) :
    ∃ w', fillEntries listing (BitVec.ofNat 32 (listedSlots m k entries).length) n entries 0 w = some w' ∧
      Filled listing ((listedSlots m k entries).map (record m)) w w' := by
  have hslots : k < 2 ^ 27 := by
    have := size.isLt
    omega
  have hle : (listedSlots m k entries).length ≤ k := length_listedSlots_le k
  have hbytes : (BitVec.ofNat 32 (listedSlots m k entries).length * dirEntrySize).toNat =
      20 * (listedSlots m k entries).length := listing_toNat (by omega)
  have hu := untouched_of_live hlo hhi hinv hentries hlisting hne hm hsize hbytes.ge
  have hstart : listing + 0 * dirEntrySize = listing := by simp
  have htotal : (0 : Word) + BitVec.ofNat 32 (listedSlots m k entries).length =
      BitVec.ofNat 32 (listedSlots m k entries).length := by simp
  exact fillEntries_spec k n entries 0 listing w hstart hend hn hslots htotal hu

/-- The filling pass behind the allocation of the listing, and the release of the raw entries. The three
blocks are apart, so that the `dir_t` keeps its two fields. -/
theorem listing_filled {dir entries size listing : Word} {w₂ : World}
    (hdir : (⟨dir, dirSize⟩ : Chunk) ∈ w.live) (hentries : (⟨entries, size⟩ : Chunk) ∈ w.live)
    (hne : (⟨dir, dirSize⟩ : Chunk) ≠ ⟨entries, size⟩) {k : Nat} (hend : EndsAt w.mem entries k)
    (hsize : 32 * k < size.toNat)
    (hg : Granted lo hi w ⟨listing, BitVec.ofNat 32 (listedSlots w.mem k entries).length * dirEntrySize⟩ w₂) :
    ∃ w₃ w₄, fillEntries listing (BitVec.ofNat 32 (listedSlots w.mem k entries).length) addressSlots entries 0
        ((w₂.store32 (dir + 8) (BitVec.ofNat 32 (listedSlots w.mem k entries).length)).store32 (dir + 4)
          listing) = some w₃ ∧
      w₃.free entries = some w₄ ∧
      DirAt w₄.mem dir listing (BitVec.ofNat 32 (listedSlots w.mem k entries).length) ∧
      Listing w₄.mem listing ((listedSlots w.mem k entries).map (record w.mem)) := by
  obtain ⟨count, hcount⟩ : ∃ count, BitVec.ofNat 32 (listedSlots w.mem k entries).length = count := ⟨_, rfl⟩
  have hslots : k < addressSlots := by
    have := size.isLt
    rw [addressSlots]
    omega
  have hold : ∀ c ∈ w.live, c ∈ w₂.live := fun c hc => hg.live ▸ Set.mem_insert_of_mem _ hc
  have hnew := hg.live ▸ Set.mem_insert _ _
  have hfresh : ∀ c ∈ w.live, c ≠ ⟨listing, _⟩ := fun c hc he => hg.fresh (he ▸ hc)
  -- the stores leave the raw entries alone
  have hkeep : ∀ x, InRange entries size.toNat x →
      ((w₂.store32 (dir + 8) count).store32 (dir + 4) listing).mem x = w.mem x := by
    intro x hx
    have hapart : ¬ InRange dir dirSize.toNat x := fun hin => live_apart hhi hinv hdir hentries hne hin hx
    rw [World.store32_mem, World.store32_mem, dirStores_frame hapart, hg.mem]
  obtain ⟨w₃, hfill, hfilled⟩ := fillEntries_of_live hlo hhi
    (w := (w₂.store32 (dir + 8) count).store32 (dir + 4) listing) hg.inv (hold _ hentries) hkeep hend hsize
    hslots hnew (hfresh _ hentries)
  have hlive₃ : w₃.live = w₂.live := World.live_of_state hfilled.state
  obtain ⟨w₄, hfree, hf⟩ := World.free_spec hlo hhi (hfilled.state ▸ hg.inv) (hlive₃ ▸ hold _ hentries)
  have hbytes := listing_toNat (n := (listedSlots w.mem k entries).length)
    (Nat.lt_of_le_of_lt (length_listedSlots_le k) hslots)
  have hat : DirAt w₃.mem dir listing count := by
    refine DirAt.congr (dirAt_stores _ _ _ _) fun x hx => hfilled.frame x fun hin => ?_
    rw [List.length_map, ← hbytes] at hin
    exact live_apart hhi hg.inv (hold _ hdir) hnew (hfresh _ hdir) hx hin
  rw [hcount] at hfill ⊢
  exact ⟨w₃, w₄, hfill, hfree, hf.mem ▸ hat, hf.mem ▸ hfilled.listing⟩

end

/-! ## The listing -/

/-- The directory is opened, and its listing is a record for each live slot before the `k`-th. -/
def ListsExactly (m : Mem 32) (k : Nat) (entries dir : Word) (r : Result Word) : Prop :=
  ∃ w', r = .done dir w' ∧ (w'.mem.read32 (dir + 8)).toNat = (liveSlots m k entries).length ∧
    Listing w'.mem (w'.mem.read32 (dir + 4)) ((liveSlots m k entries).map (record m))

section

variable {lo hi : Nat} (hlo : 0 < lo) (hhi : hi < 2 ^ 32) {dr : DiskRead} (hk : Keeps lo hi dr)
  {w : World} (hinv : w.state.heap.Inv lo hi) (hno : w.state.err = .no) {garbage : Word} {disk : DiskPtr}
  (htype : (disk w.mem).type = .fat12) {dir : Word} (hdir : (⟨dir, dirSize⟩ : Chunk) ∈ w.live)
  {dirname : Option (List Byte)} {entries size : Word} {w₁ : World}
  (hread : ReadsEntries dr garbage disk dirname w entries w₁)
  (hbuffer : (⟨entries, size⟩ : Chunk) ∈ w₁.live) {k : Nat} (hend : EndsAt w₁.mem entries k)
  (hsize : 32 * k < size.toNat)
include hlo hhi hk hinv hno htype hdir hread hbuffer hend hsize

/-- Nothing to list is an allocation of no bytes, which fails; otherwise a listing that is granted has
a record for every slot but the labels. -/
theorem fat12DirOpen_listed :
    (listedSlots w₁.mem k entries = [] → ∃ w',
      fat12DirOpen dr garbage (some disk) dir dirname w = .done 0 w' ∧ w'.state.err = .invarg) ∧
    (listedSlots w₁.mem k entries ≠ [] →
      (w₁.malloc (BitVec.ofNat 32 (listedSlots w₁.mem k entries).length * dirEntrySize)).1 ≠ 0 →
      ∃ w', fat12DirOpen dr garbage (some disk) dir dirname w = .done dir w' ∧
        w'.mem.read32 (dir + 8) = BitVec.ofNat 32 (listedSlots w₁.mem k entries).length ∧
        Listing w'.mem (w'.mem.read32 (dir + 4)) ((listedSlots w₁.mem k entries).map (record w₁.mem))) := by
  have hrun := hread.run
  rcases readEntries_cases hlo hhi hk hinv hno garbage disk dirname with
    ⟨w', e⟩ | ⟨x, w', e, -, hnone⟩ | ⟨entries', size', w', e, h₁, howns, -⟩
  · rw [hrun] at e
    cases e
  · exact absurd hread (hnone entries w₁)
  rw [hrun] at e
  cases e
  have hguard : ¬ ((disk w.mem).type ≠ .fat12 ∨ dir = 0) := fun h =>
    h.elim (fun hn => hn htype) (Heap.Inv.start_ne_zero hlo hhi hinv hdir)
  have hslots : k < addressSlots := by
    have := size.isLt
    rw [addressSlots]
    omega
  obtain ⟨count, hcounted⟩ : ∃ count, BitVec.ofNat 32 (listedSlots w₁.mem k entries).length = count :=
    ⟨_, rfl⟩
  have hcount : countEntries w₁.mem addressSlots entries 0 = some count := by
    rw [countEntries_spec k addressSlots entries 0 hend hslots, hcounted]
    simp
  rw [fat12DirOpen, if_neg hguard]
  simp only [hrun, if_neg (not_not.mpr h₁), hcount, World.malloc_store32]
  constructor
  · intro hnil
    have hzero : count * dirEntrySize = 0 := by
      rw [← hcounted, hnil]
      decide
    simp only [hzero, World.malloc_zero_bytes]
    exact ⟨_, rfl, rfl⟩
  · intro _ hserve
    rw [hcounted] at hserve ⊢
    rcases World.malloc_spec hlo hhi howns.inv (count * dirEntrySize) with
      ⟨w₂, e, -⟩ | ⟨listing, w₂, e, hg⟩
    · rw [e] at hserve
      exact absurd rfl hserve
    have hlive₁ : (⟨dir, dirSize⟩ : Chunk) ∈ w₁.live := howns.live ▸ Set.mem_insert_of_mem _ hdir
    have hentries : (⟨dir, dirSize⟩ : Chunk) ≠ ⟨entries, size⟩ := by
      intro he
      refine howns.fresh ?_
      rw [Heap.Inv.live_inj hlo hhi howns.inv howns.mem hbuffer rfl, ← he]
      exact hdir
    obtain ⟨w₄, w₅, hfill, hfree, hat, hl⟩ :=
      listing_filled hlo hhi howns.inv hlive₁ hbuffer hentries hend hsize (hcounted.symm ▸ hg)
    rw [hcounted] at hfill hat
    have herr₂ : w₂.state.err = .no := hg.err.trans h₁
    refine ⟨w₅, ?_, hat.entryCount, ?_⟩
    · simp only [e, World.store32_state, if_neg (not_not.mpr herr₂), hfill]
      rw [show w₄.free entries = some w₅ from hfree]
    · rw [hat.entries]
      exact hl

end

end Installer
end Amethyst
