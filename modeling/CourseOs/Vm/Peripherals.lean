import CourseOs.Vm.HeapMmio
import CourseOs.Vm.Walk

/-!
# Requests for peripherals

`vm2_map_peripheral` gives out the addresses below `KERNEL_MMIO_BASE`,
downward.  Its static variable is the end of what is left: a request lowers it
by its size, the loop raises it again while it writes the sections, and then
it is lowered once more.

* `mapInTurn` — requests one after the other, with the regions they return;
* `RegionMapped` — what one request does to the table;
* `Stacked` — each region ends where the one before it starts;
* `mapInTurn_spec` — the regions are stacked, and each keeps the sections it
  was given.

Nothing is ever unmapped, so a region is permanent: later requests write only
entries below it.  The result, `peripherals_disjoint_permanent`, is about
requests that fit; what happens when they come down to the heap is in
`CourseOs.Vm.HeapMmio`.
-/

namespace CourseOs.KernelSpace

open ByteMemory Pmm

variable {m m' : ByteMemory} {i n top physical : ℕ} {r r' : Region} {rs : List Region}
  {requests : List (ℕ × ℕ)}

/-- A request for `nMebibytes` MiB at `physical`, and the address it returned,
from which on the MiB are mapped. -/
structure Region where
  physical : ℕ
  nMebibytes : ℕ
  base : ℕ
  deriving DecidableEq, Repr

/-- The bytes of a region, which is a whole number of sections. -/
def Region.size (r : Region) : ℕ := r.nMebibytes * mebibyte

/-- `vm2_map_peripheral`, once for each request, `mmio_current_top` being
`top` before the first one. -/
def mapInTurn : List (ℕ × ℕ) → ByteMemory → ℕ → ByteMemory × List Region
  | [], m, _ => (m, [])
  | (physical, n) :: requests, m, top =>
      let called := vm2MapPeripheral m top physical n
      let rest := mapInTurn requests called.1 called.2
      (rest.1, ⟨physical, n, called.2⟩ :: rest.2)

theorem mapInTurn_cons (n physical top : ℕ) (requests : List (ℕ × ℕ)) (m : ByteMemory) :
    mapInTurn ((physical, n) :: requests) m top =
      ((mapInTurn requests (vm2MapPeripheral m top physical n).1
          (vm2MapPeripheral m top physical n).2).1,
        ⟨physical, n, (vm2MapPeripheral m top physical n).2⟩ ::
          (mapInTurn requests (vm2MapPeripheral m top physical n).1
            (vm2MapPeripheral m top physical n).2).2) := rfl

/-- A request for a whole number of MiB that ends by the end of the physical
addresses. -/
structure Fits (physical n : ℕ) : Prop where
  aligned : physical % mebibyte = 0
  le : physical + n * mebibyte ≤ 2 ^ 32

/-! ### One request

The static variable is lowered, raised and lowered again in one request.  For
a request that fits, the rounds of the loop come by at the entries of the
region returned, once each. -/

/-- Where the rounds come by: at the entries from the first one up, once at
each. -/
theorem roundIndex_of_fits (htop : top < 2 ^ 32) (hfits : n * mebibyte ≤ top) {k : ℕ} (hk : k < n) :
    roundIndex (top - n * mebibyte) k = (top - n * mebibyte) / mebibyte + k := by
  have hlt := Nat.mul_lt_mul_of_pos_right hk (show 0 < mebibyte by decide)
  have hsum : top - n * mebibyte + k * mebibyte < 2 ^ 32 := by omega
  unfold roundIndex l1ptIndex
  rw [Nat.mod_eq_of_lt hsum]
  exact Nat.add_mul_div_right _ _ (by decide)

/-- A request that fits lowers the cursor by its size. -/
theorem vm2MapPeripheral_eq (htop : top < 2 ^ 32) (hfits : n * mebibyte ≤ top) :
    vm2MapPeripheral m top physical n =
      ((mapPeripheralLoop n (top - n * mebibyte) physical m).1, top - n * mebibyte) := by
  have hsize : n * mebibyte % 2 ^ 32 = n * mebibyte := Nat.mod_eq_of_lt (by omega)
  have hfirst := sub32_of_le hfits htop
  have hloop : (mapPeripheralLoop n (top - n * mebibyte) physical m).2 = top := by
    rw [mapPeripheralLoop_top (by omega), Nat.sub_add_cancel hfits, Nat.mod_eq_of_lt htop]
  unfold vm2MapPeripheral
  simp only [hsize, hfirst, hloop]

/-- What a request for `n` MiB does to the table if it returns `base`: `n`
entries become sections, one after the other, and no other byte changes. -/
structure RegionMapped (m : ByteMemory) (physical n base : ℕ) (m' : ByteMemory) : Prop where
  outside : ∀ x, (x < kernelL1PageTable ∨ kernelL1PageTable + 4 * 0x1000 ≤ x) → m' x = m x
  mapped : ∀ k < n, kernelEntry m' (base / mebibyte + k) =
    sectionEntry (l1ptBaseAddress (physical + k * mebibyte))
  kept : ∀ i, (∀ k < n, base / mebibyte + k ≠ i) → kernelEntry m' i = kernelEntry m i

/-- **One request** that fits below `mmio_current_top`. -/
theorem vm2MapPeripheral_mapped (physical : ℕ) (htop : top < 2 ^ 32) (hfits : n * mebibyte ≤ top) :
    RegionMapped m physical n (top - n * mebibyte) (vm2MapPeripheral m top physical n).1 := by
  have hfirst : top - n * mebibyte < 2 ^ 32 := by omega
  have hentry := fun i => @mapPeripheralLoop_entry m i n _ physical hfirst
  rw [vm2MapPeripheral_eq htop hfits]
  refine ⟨fun x hx => mapPeripheralLoop_outside hfirst hx, fun k hk => ?_, fun i hne => ?_⟩
  · rcases hentry ((top - n * mebibyte) / mebibyte + k) with ⟨hno, -⟩ | ⟨k', hk', heq, hsection⟩
    · exact absurd (roundIndex_of_fits htop hfits hk) (hno k hk)
    · rw [roundIndex_of_fits htop hfits hk'] at heq
      rw [hsection, Nat.add_left_cancel heq]
  · rcases hentry i with ⟨-, heq⟩ | ⟨k, hk, heq, -⟩
    · exact heq
    · exact absurd ((roundIndex_of_fits htop hfits hk).symm.trans heq) (hne k hk)

/-! ### Requests in turn

Regions are stacked from the top down.  Each request leaves what is above it
alone, and so the first translation of a region is still there after the last
request. -/

/-- Each region ends where the one before it starts, and the first one ends at
`top`.  So no two have a byte in common. -/
def Stacked (top : ℕ) : List Region → Prop
  | [] => True
  | r :: rs => r.base + r.size = top ∧ Stacked r.base rs

theorem Stacked.end_le (h : Stacked top rs) (hr : r ∈ rs) : r.base + r.size ≤ top := by
  induction rs generalizing top with
  | nil => cases hr
  | cons r₀ rs ih =>
      obtain ⟨hfirst, hrest⟩ := h
      rcases List.mem_cons.mp hr with rfl | hmem
      · exact hfirst.le
      · exact (ih hrest hmem).trans (hfirst ▸ Nat.le_add_right _ _)

/-- Stacked regions have no byte in common. -/
theorem Stacked.pairwise (h : Stacked top rs) :
    rs.Pairwise fun r r' => RangesDisjoint r.base r.size r'.base r'.size := by
  induction rs generalizing top with
  | nil => exact List.Pairwise.nil
  | cons r rs ih =>
      obtain ⟨-, hrest⟩ := h
      exact List.pairwise_cons.mpr ⟨fun r' hmem => .inr (hrest.end_le hmem), ih hrest⟩

/-- Entry `i` is one of those of the region: they follow each other from the
base on. -/
def Region.HasEntry (r : Region) (i : ℕ) : Prop := ∃ k < r.nMebibytes, r.base / mebibyte + k = i

/-- The entries of a region lie below the end of it. -/
theorem Region.HasEntry.lt (h : r.HasEntry i) : i < (r.base + r.size) / mebibyte := by
  obtain ⟨k, hk, rfl⟩ := h
  unfold Region.size
  rw [Nat.add_mul_div_right _ _ (by decide)]
  exact Nat.add_lt_add_left hk _

/-- The entries of an aligned region are those for its addresses. -/
theorem Region.HasEntry.span (h : r.HasEntry i) (haligned : mebibyte ∣ r.base) :
    r.base ≤ i * mebibyte ∧ i * mebibyte < r.base + r.size := by
  obtain ⟨k, hk, rfl⟩ := h
  rw [Nat.add_mul, Nat.div_mul_cancel haligned]
  exact ⟨Nat.le_add_right _ _,
    Nat.add_lt_add_left (Nat.mul_lt_mul_of_pos_right hk (by decide)) _⟩

/-- Regions stacked down from a whole MiB start at whole MiB. -/
theorem Stacked.aligned (h : Stacked top rs) (htop : mebibyte ∣ top) :
    ∀ r ∈ rs, mebibyte ∣ r.base := by
  induction rs generalizing top with
  | nil => exact fun r hr => absurd hr List.not_mem_nil
  | cons r₀ rs ih =>
      obtain ⟨hfirst, hrest⟩ := h
      have hdvd : mebibyte ∣ r₀.base :=
        (Nat.dvd_add_left (Nat.dvd_mul_left mebibyte r₀.nMebibytes)).mp (hfirst ▸ htop)
      exact List.forall_mem_cons.mpr ⟨hdvd, ih hrest hdvd⟩

/-- What requests in turn have done to the table: every MiB of every region is
a section, and no other entry is written. -/
structure RegionsMapped (m : ByteMemory) (rs : List Region) (m' : ByteMemory) : Prop where
  outside : ∀ x, (x < kernelL1PageTable ∨ kernelL1PageTable + 4 * 0x1000 ≤ x) → m' x = m x
  mapped : ∀ r ∈ rs, ∀ k < r.nMebibytes, kernelEntry m' (r.base / mebibyte + k) =
    sectionEntry (l1ptBaseAddress (r.physical + k * mebibyte))
  kept : ∀ i, (∀ r ∈ rs, ¬r.HasEntry i) → kernelEntry m' i = kernelEntry m i

/-- The addresses of a region translate to those asked for. -/
theorem RegionsMapped.walk_eq (h : RegionsMapped m rs m') (hr : r ∈ rs)
    (hfit : Fits r.physical r.nMebibytes) (haligned : mebibyte ∣ r.base) {o : ℕ} (ho : o < r.size) :
    walk m' kernelL1PageTable (r.base + o) = some (r.physical + o) := by
  have hk : o / mebibyte < r.nMebibytes := (Nat.div_lt_iff_lt_mul (by decide)).mpr ho
  have hindex : l1ptIndex (r.base + o) = r.base / mebibyte + o / mebibyte := by
    unfold l1ptIndex
    exact Nat.add_div_of_dvd_right haligned
  have hmul := Nat.div_add_mod' o mebibyte
  have hoffset : (r.base + o) % mebibyte = o % mebibyte := by
    rw [Nat.add_mod, Nat.mod_eq_zero_of_dvd haligned, Nat.zero_add, Nat.mod_mod]
  have hentry := h.mapped r hr _ hk
  rw [← hindex] at hentry
  have hlt : r.physical + o / mebibyte * mebibyte < 2 ^ 32 :=
    lt_of_lt_of_le (Nat.add_lt_add_left (Nat.mul_lt_mul_of_pos_right hk (by decide)) _) hfit.le
  rw [walk_section ((Nat.add_mul_mod_self_right _ _ _).trans hfit.aligned) hlt hentry, hoffset,
    Nat.add_assoc, hmul]

/-- **Requests in turn**: the regions are stacked, and the later requests
leave alone what the earlier ones have mapped. -/
theorem mapInTurn_spec (requests : List (ℕ × ℕ)) (m : ByteMemory) (htop : top < 2 ^ 32)
    (hfits : (requests.map Prod.snd).sum * mebibyte ≤ top) :
    Stacked top (mapInTurn requests m top).2 ∧
      RegionsMapped m (mapInTurn requests m top).2 (mapInTurn requests m top).1 := by
  induction requests generalizing m top with
  | nil => exact ⟨trivial, fun x _ => rfl, fun r hr => absurd hr List.not_mem_nil, fun i _ => rfl⟩
  | cons q requests ih =>
      obtain ⟨physical, n⟩ := q
      rw [List.map_cons, List.sum_cons, Nat.add_mul] at hfits
      dsimp only at hfits
      have hfit : n * mebibyte ≤ top := le_trans (Nat.le_add_right _ _) hfits
      have hbase : top - n * mebibyte < 2 ^ 32 := lt_of_le_of_lt (Nat.sub_le _ _) htop
      have hone := vm2MapPeripheral_mapped (m := m) physical htop hfit
      have hend : (vm2MapPeripheral m top physical n).2 = top - n * mebibyte := by
        rw [vm2MapPeripheral_eq htop hfit]
      obtain ⟨hstacked, hrest⟩ := ih (vm2MapPeripheral m top physical n).1 hbase
        (Nat.le_sub_of_add_le' hfits)
      rw [mapInTurn_cons, hend]
      dsimp only
      -- the regions that follow lie below this one
      have hbelow : ∀ r ∈ (mapInTurn requests (vm2MapPeripheral m top physical n).1
          (top - n * mebibyte)).2, ∀ k, ¬r.HasEntry ((top - n * mebibyte) / mebibyte + k) := by
        intro r hr k hentry
        have hle := Nat.div_le_div_right (c := mebibyte) (hstacked.end_le hr)
        have hlt := hentry.lt
        omega
      refine ⟨⟨Nat.sub_add_cancel hfit, hstacked⟩, fun x hx => ?_, fun r hr k hk => ?_,
        fun i hno => ?_⟩
      · exact (hrest.outside x hx).trans (hone.outside x hx)
      · rcases List.mem_cons.mp hr with rfl | hmem
        · rw [hrest.kept _ fun r hr => hbelow r hr k]
          exact hone.mapped k hk
        · exact hrest.mapped r hmem k hk
      · rw [hrest.kept i fun r hr => hno r (List.mem_cons_of_mem _ hr)]
        exact hone.kept i fun k hk heq => hno _ List.mem_cons_self ⟨k, hk, heq⟩

/-- The regions answer the requests, in order. -/
theorem mapInTurn_requests (requests : List (ℕ × ℕ)) (m : ByteMemory) (top : ℕ) :
    (mapInTurn requests m top).2.map (fun r => (r.physical, r.nMebibytes)) = requests := by
  induction requests generalizing m top with
  | nil => rfl
  | cons q requests ih =>
      rw [mapInTurn_cons, List.map_cons, ih]

/-- **Peripheral mappings are disjoint and permanent.**  Whatever requests are
made, as long as each is for whole MiB that do not wrap and all of them fit
above `KERNEL_HEAP_BASE`: the regions are stacked downward from
`KERNEL_MMIO_BASE` and have no byte in common; at the end each translates to
what was asked for; and no other entry has changed, nor any byte outside the
table. -/
theorem peripherals_disjoint_permanent (m : ByteMemory) (requests : List (ℕ × ℕ))
    (hfits : ∀ q ∈ requests, Fits q.1 q.2)
    (hsize : (requests.map Prod.snd).sum * mebibyte < kernelMmioBase - kernelHeapBase) :
    ∃ m' rs, mapInTurn requests m kernelMmioBase = (m', rs) ∧
      rs.map (fun r => (r.physical, r.nMebibytes)) = requests ∧
      Stacked kernelMmioBase rs ∧
      (rs.Pairwise fun r r' => RangesDisjoint r.base r.size r'.base r'.size) ∧
      (∀ r ∈ rs, ∀ o < r.size, walk m' kernelL1PageTable (r.base + o) = some (r.physical + o)) ∧
      (∀ i, (∀ r ∈ rs, i * mebibyte < r.base ∨ r.base + r.size ≤ i * mebibyte) →
        kernelEntry m' i = kernelEntry m i) ∧
      ∀ x, (x < kernelL1PageTable ∨ kernelL1PageTable + 4 * 0x1000 ≤ x) → m' x = m x := by
  have hle : (requests.map Prod.snd).sum * mebibyte ≤ kernelMmioBase :=
    hsize.le.trans (Nat.sub_le _ _)
  obtain ⟨hstacked, hmapped⟩ := mapInTurn_spec requests m (by decide) hle
  have hrequests := mapInTurn_requests requests m kernelMmioBase
  have haligned := hstacked.aligned (by decide)
  refine ⟨_, _, rfl, hrequests, hstacked, hstacked.pairwise, fun r hr o ho => ?_,
    fun i hno => hmapped.kept i fun r hr hentry => ?_, hmapped.outside⟩
  · have hfit : Fits r.physical r.nMebibytes := by
      refine hfits (r.physical, r.nMebibytes) ?_
      rw [← hrequests]
      exact List.mem_map.mpr ⟨r, hr, rfl⟩
    exact hmapped.walk_eq hr hfit (haligned r hr) ho
  · have hspan := hentry.span (haligned r hr)
    rcases hno r hr with hlt | hge
    · exact absurd hspan.1 (not_le.mpr hlt)
    · exact absurd hspan.2 (not_lt.mpr hge)

/-- The requests of `bcm2836_init`, over a table of zeroes.  Together they are
twenty MiB. -/
theorem peripherals_of_bcm2836 :
    ∃ m' rs, mapInTurn [(0x40000000, 4), (0x3F000000, 16)] ⟨fun _ => 0⟩ kernelMmioBase = (m', rs) ∧
      rs.map (fun r => (r.physical, r.nMebibytes)) = [(0x40000000, 4), (0x3F000000, 16)] ∧
      ∀ r ∈ rs, ∀ o < r.size, walk m' kernelL1PageTable (r.base + o) = some (r.physical + o) := by
  have hfits : ∀ q ∈ [(0x40000000, 4), (0x3F000000, 16)], Fits q.1 q.2 := by
    intro q hq
    rcases List.mem_pair.mp hq with rfl | rfl
    · exact ⟨by decide, by decide⟩
    · exact ⟨by decide, by decide⟩
  obtain ⟨m', rs, hcalled, hrequests, -, -, hwalk, -⟩ :=
    peripherals_disjoint_permanent ⟨fun _ => 0⟩ [(0x40000000, 4), (0x3F000000, 16)] hfits
      (by decide)
  exact ⟨m', rs, hcalled, hrequests, hwalk⟩

end CourseOs.KernelSpace
