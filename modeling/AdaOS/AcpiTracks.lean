import AdaOS.AcpiSearch

namespace AdaOS
set_option autoImplicit true
open ByteMem

/-- The aliases that are mapped after an event. -/
def aliasStep (g : Nat → Prop) : AcpiEvent σ → Nat → Prop
  | .mapPage phys => fun a => g a ∨ pageOf a = pageOf phys
  | _ => g

/-- A kernel with its direct map in order, in which the aliases of `g` are mapped and no others. -/
def Heap.Aliases (A : FrameAllocator σ) (k : KernelLayout) (g : Nat → Prop) (h : Heap σ) : Prop :=
  ∃ M, h.Direct A k M ∧ ∀ a, k.Shown a → (M (k.directPage a) ≠ none ↔ g a)

/-- The bytes are those of an alias, in such a kernel. -/
def ReadsAlias (A : FrameAllocator σ) (k : KernelLayout) (g : Nat → Prop) (h : Heap σ)
    (virt n : Nat) : Prop :=
  h.Aliases A k g ∧ ∃ a, virt = a + k.higherHalf ∧ ∀ i < n, k.Shown (a + i)

/-- What is known of an event when the aliases of `g` are mapped; `U` says which tables may be
used. -/
def AcpiEvent.Sound (A : FrameAllocator σ) (k : KernelLayout) (U : AcpiTable → Nat → Prop)
    (g : Nat → Prop) : AcpiEvent σ → Prop
  | .mapPage _ => True
  | .read h virt n => ReadsAlias A k g h virt n
  | .entry h rootSdt i => ReadsAlias A k g h (rootSdt + 36 + i * 4) 4
  | .uses table virt => U table virt
  | .noResponse => False
  | .log _ _ => True

abbrev AcpiRun.Tracks (A : FrameAllocator σ) (k : KernelLayout) (U : AcpiTable → Nat → Prop)
    (g : Nat → Prop) (x : AcpiRun σ α) (post : (Nat → Prop) → α → Prop) : Prop :=
  Traced.Tracks aliasStep (AcpiEvent.Sound A k U) g x post

variable {σ : Type} {A : FrameAllocator σ} {h h' now : Heap σ} {k : KernelLayout} {M : PageMap}
  {ram : Mem} {U : AcpiTable → Nat → Prop} {g : Nat → Prop}

theorem Heap.Direct.aliases (hd : h.Direct A k M) :
    h.Aliases A k fun a => M (k.directPage a) ≠ none := ⟨M, hd, fun _ _ => Iff.rfl⟩

theorem Heap.loadAt_lt (h₀ : h.loadAt ram virt n = .ok x) : x < 256 ^ n := by
  obtain ⟨_, _, h₀⟩ := bind_ok h₀
  cases h₀
  exact load_lt _ 0 n

section Kernel
variable (hal : h.Aliases A k g) (hk : k.Regular) (hp : HhdmPlaced k.higherHalf)
include hal hk hp

theorem Heap.Aliases.kept (hkeep : KeepsBacked A h h') : h'.Aliases A k g := by
  obtain ⟨M, hd, hg⟩ := hal
  obtain ⟨M', hM', hsame⟩ := hd.kept_same hk hp hkeep
  refine ⟨M', hM', fun a hs => ?_⟩
  rw [hsame a hs]
  exact hg a hs

theorem Heap.Aliases.mapDirect (hs : k.Shown phys) (hf : pteGetAddr flags = 0)
    (h₀ : h.mapDirect A k.higherHalf phys flags = .ok (r, h')) :
    h'.Aliases A k (if r = true then fun a => g a ∨ pageOf a = pageOf phys else g) := by
  obtain ⟨M, hd, hg⟩ := hal
  obtain ⟨M', hM', hover, hfail, hdone, hkeep⟩ :=
    hd.mapDirect_keeps hk hp hs.lt hs.clear hf h₀
  refine ⟨M', hM', fun a ha => ?_⟩
  cases r with
  | false =>
    rw [hfail rfl]
    exact hg a ha
  | true =>
    change _ ↔ g a ∨ pageOf a = pageOf phys
    rw [← hg a ha, ← directPage_eq_iff hk ha.lt hs.lt]
    by_cases hsame : k.directPage a = k.directPage phys
    · rw [hsame]
      exact ⟨fun _ => .inr rfl, fun _ => hdone rfl⟩
    · rw [hkeep _ hsame]
      exact ⟨.inl, fun h => h.resolve_right hsame⟩

theorem tracks_mapDirect (hs : k.Shown phys) :
    AcpiRun.Tracks A k U g (AcpiRun.mapDirect A k.higherHalf h phys)
      fun g' y => y.2.Aliases A k g' := by
  rw [AcpiRun.mapDirect]
  split
  · next h₀ =>
    refine ⟨⟨trivial, trivial⟩, fun y hy => ?_⟩
    have hval : y = (true, _) := Except.ok.inj (hy.symm.trans h₀)
    rw [hval]
    exact hal.mapDirect hk hp hs (by decide) h₀
  · next hno =>
    refine ⟨trivial, fun y hy => ?_⟩
    obtain ⟨r, h'⟩ := y
    have hfail : r ≠ true := by
      rintro rfl
      exact hno _ hy
    have hr := hal.mapDirect hk hp hs (by decide) hy
    rwa [if_neg hfail] at hr

end Kernel

def Steady (A : FrameAllocator σ) (k : KernelLayout) (U : AcpiTable → Nat → Prop)
    (g : Nat → Prop) (l : List (AcpiEvent σ)) : Prop :=
  Traced.Along aliasStep (AcpiEvent.Sound A k U) g l ∧ l.foldl aliasStep g = g

theorem Steady.nil : Steady A k U g [] := ⟨trivial, rfl⟩

theorem Steady.tracks {x : AcpiRun σ α} (hx : Steady A k U g x.events) :
    AcpiRun.Tracks A k U g x fun g' _ => g' = g := ⟨hx.1, fun _ _ => hx.2⟩

theorem tracks_logIf (p : Bool) (level : AcpiLog) (msg : String) :
    AcpiRun.Tracks A k U g (AcpiRun.logIf p level msg) fun g' _ => g' = g := by
  apply Steady.tracks
  rw [AcpiRun.logIf]
  cases p with
  | false => exact Steady.nil
  | true => exact ⟨⟨trivial, trivial⟩, rfl⟩

section Reads
variable (hal : h.Aliases A k g)
include hal

theorem Steady.read (hs : ∀ i < n, k.Shown (a + i)) (hl : Steady A k U g l) :
    Steady A k U g (.read h (a + k.higherHalf) n :: l) := ⟨⟨⟨hal, a, rfl, hs⟩, hl.1⟩, hl.2⟩

theorem tracks_reads (hs : ∀ i < n, k.Shown (a + i)) :
    AcpiRun.Tracks A k U g (AcpiRun.reads ram h (a + k.higherHalf) n) fun g' _ => g' = g :=
  (Steady.nil.read hal hs).tracks

theorem tracks_loadAt (hs : ∀ i < n, k.Shown (a + i)) :
    AcpiRun.Tracks A k U g (AcpiRun.loadAt ram h (a + k.higherHalf) n) fun g' _ => g' = g :=
  (Steady.nil.read hal hs).tracks

theorem steady_comparedBytes (s : Nat → BitVec 8) (hs : ∀ j < i + n, k.Shown (a + j)) :
    Steady A k U g (AcpiRun.comparedBytes ram h (a + k.higherHalf) s i n) := by
  induction n generalizing i with
  | zero => exact Steady.nil
  | succ n ih =>
    have hrest : Steady A k U g
        (if h.shows ram (a + k.higherHalf + i) = some (s i) then
          AcpiRun.comparedBytes ram h (a + k.higherHalf) s (i + 1) n else []) := by
      split
      · apply ih
        intro j hj
        exact hs j (by omega)
      · exact Steady.nil
    rw [AcpiRun.comparedBytes, Nat.add_right_comm]
    rw [Nat.add_right_comm] at hrest
    apply hrest.read hal
    intro j hj
    rw [Nat.add_assoc]
    exact hs (i + j) (by omega)

theorem tracks_memcmpAt (s : Nat → BitVec 8) (hs : ∀ j < n, k.Shown (a + j)) :
    AcpiRun.Tracks A k U g (AcpiRun.memcmpAt ram h (a + k.higherHalf) s 0 n)
      fun g' _ => g' = g := by
  apply Steady.tracks
  apply steady_comparedBytes hal s
  intro j hj
  exact hs j (by omega)

theorem steady_printedBytes (hs : ∀ j ≤ n, k.Shown (a + j)) :
    Steady A k U g (AcpiRun.printedBytes ram h (a + k.higherHalf) n) := by
  induction n generalizing a with
  | zero => exact Steady.nil.read hal fun j hj => hs j (by omega)
  | succ n ih =>
    have hnext : Steady A k U g
        (AcpiRun.printedBytes ram h (a + k.higherHalf + 1) n) := by
      rw [Nat.add_right_comm]
      apply ih
      intro j hj
      rw [Nat.add_assoc]
      exact hs (1 + j) (by omega)
    rw [AcpiRun.printedBytes]
    apply Steady.read hal fun j hj => hs j (by omega)
    cases h.shows ram (a + k.higherHalf) with
    | none => exact Steady.nil
    | some b =>
      dsimp only
      split
      · exact Steady.nil
      · exact hnext

end Reads

section Functions
variable (hal : h.Aliases A k g) (hk : k.Regular) (hp : HhdmPlaced k.higherHalf)
include hal hk hp

theorem tracks_kmalloc (size : Nat) :
    AcpiRun.Tracks A k U g (Traced.call (kmalloc A h size))
      fun g' y => g' = g ∧ y.2.Aliases A k g :=
  Traced.Tracks.call fun _ hy => ⟨rfl, hal.kept hk hp (kmalloc_keepsBacked hy)⟩

theorem tracks_signaturePanic (size : Nat) (format : String) (va : Heap σ → List Printf.Arg)
    {looks : Heap σ → List (AcpiEvent σ)}
    (hlooks : ∀ now : Heap σ, now.Aliases A k g → Steady A k U g (looks now)) :
    AcpiRun.Tracks A k U g (AcpiRun.signaturePanic (α := α) A h size format va looks) post := by
  apply (tracks_kmalloc hal hk hp size).bind
  rintro ⟨buf, now⟩ g' _ ⟨rfl, hnow⟩
  exact ⟨(hlooks now hnow).1, fun _ hno => (sprintfPanic_error hno).elim⟩

variable (hv : 2 ^ 64 - 2 ^ 31 ≤ k.virtualBase)
include hv

theorem tracks_checkHeaderSignature (ha : a < 2 ^ 32) (expected : String) :
    AcpiRun.Tracks A k U g (AcpiRun.checkHeaderSignature A ram h (a + k.higherHalf) expected)
      fun g' _ => g' = g := by
  apply (tracks_memcmpAt hal _ fun j hj => shown_of_lt hp hv (by omega)).bind_same
  intro r _
  split
  · apply tracks_signaturePanic hal hk hp
    intro now hnow
    exact steady_printedBytes hnow fun j hj => shown_of_lt hp hv (by omega)
  · exact Traced.Tracks.pure rfl

omit hk in
theorem tracks_checksumAt (ha : a < 2 ^ 32) :
    AcpiRun.Tracks A k U g (AcpiRun.checksumAt ram h (a + k.higherHalf)) fun g' _ => g' = g := by
  rw [AcpiRun.checksumAt, Nat.add_right_comm]
  apply (tracks_reads hal fun i hi => shown_of_lt hp hv (by omega)).bind_same
  intro _ _
  have hlt : sdtLength (h.view ram (a + k.higherHalf)) < 2 ^ 32 := load_lt _ 4 4
  apply (tracks_reads hal fun i hi => shown_of_lt hp hv (by omega)).bind_same
  intro _ _
  exact Traced.Tracks.call fun _ _ => rfl

/-- A pointer that `find_table` returns is `NULL` or the alias of a 32-bit address. -/
theorem tracks_findEntry (hlow : rsdt + 36 + (i + n) * 4 ≤ 0x10000000000) (signature : String) :
    AcpiRun.Tracks A k U g
      (AcpiRun.findEntry A ram k.higherHalf (rsdt + k.higherHalf) signature i n h)
      fun g' y => y.2.Aliases A k g' ∧ (y.1 = 0 ∨ ∃ t < 2 ^ 32, y.1 = t + k.higherHalf) := by
  induction n generalizing i h g with
  | zero => exact Traced.Tracks.pure ⟨hal, .inl rfl⟩
  | succ n ih =>
    have hroom := hp.room
    have hentry : AcpiRun.Tracks A k U g (AcpiRun.entryAt ram h (rsdt + k.higherHalf) i)
        fun g' _ => g' = g := by
      have haddr : rsdt + k.higherHalf + 36 + i * 4 = rsdt + 36 + i * 4 + k.higherHalf := by omega
      refine ⟨⟨⟨hal, _, haddr, fun j hj => ?_⟩, trivial⟩, fun _ _ => rfl⟩
      exact shown_of_lt hp hv (by omega)
    apply hentry.bind_same
    intro phys hphys
    have hlt : phys < 2 ^ 32 := Heap.loadAt_lt hphys
    have hvert : u64 (phys + k.higherHalf) = phys + k.higherHalf := u64_of_lt (by omega)
    rw [hvert]
    apply (tracks_mapDirect hal hk hp (shown_of_lt hp hv (by omega))).bind
    intro y g' _ hy
    apply (tracks_memcmpAt hy _ fun j hj => shown_of_lt hp hv (by omega)).bind_same
    intro r _
    split
    · exact Traced.Tracks.pure ⟨hy, .inr ⟨phys, hlt, rfl⟩⟩
    · exact ih hy (by omega)

theorem tracks_findTable (hrsdt : rsdt < 2 ^ 32) (hU : U .rsdt (rsdt + k.higherHalf))
    (signature : String) :
    AcpiRun.Tracks A k U g
      (AcpiRun.findTable A ram k.higherHalf h (rsdt + k.higherHalf) signature)
      fun g' y => y.2.Aliases A k g' ∧ (y.1 = 0 ∨ ∃ t < 2 ^ 32, y.1 = t + k.higherHalf) := by
  have huse : AcpiRun.Tracks A k U g (Traced.emit (.uses .rsdt (rsdt + k.higherHalf)))
      fun g' _ => g' = g := Traced.Tracks.emit hU rfl
  apply huse.bind_same
  intro _ _
  rw [Nat.add_right_comm]
  apply (tracks_loadAt hal fun i hi => shown_of_lt hp hv (by omega)).bind_same
  intro length _
  have hcount : sub64 length 36 / 4 % 2 ^ 32 < 2 ^ 32 := Nat.mod_lt _ (by decide)
  exact tracks_findEntry hal hk hp hv (by omega) signature

theorem tracks_allocArrays (ha : a < 2 ^ 32) (l : List MadtArray) (arrays : MadtArray → Nat) :
    AcpiRun.Tracks A k U g (AcpiRun.allocArrays A ram (a + k.higherHalf) l arrays h)
      fun g' y => g' = g ∧ y.2.Aliases A k g := by
  induction l generalizing arrays h with
  | nil => exact Traced.Tracks.pure ⟨rfl, hal⟩
  | cons b l ih =>
    rw [AcpiRun.allocArrays, Nat.add_right_comm]
    apply (tracks_loadAt hal fun i hi => shown_of_lt hp hv (by omega)).bind_same
    intro length _
    apply (tracks_kmalloc hal hk hp length).bind
    rintro ⟨p, h'⟩ g' _ ⟨rfl, hy⟩
    exact ih hy _

end Functions

/-- A read of a record at an offset below `n`, or no read. -/
def MadtAccess.Below (n : Nat) : MadtAccess → Prop
  | .header offset => offset < n
  | .payload offset _ => offset < n
  | .store _ _ => True
  | .typeString _ => True

theorem recordAccesses_below (h : offset < n) :
    ∀ a ∈ recordAccesses t offset index, a.Below n := by
  rw [recordAccesses]
  cases madtArray (t offset) with
  | some array =>
    exact List.forall_mem_cons.2 ⟨trivial, List.forall_mem_cons.2
      ⟨h, List.forall_mem_singleton.2 h⟩⟩
  | none => exact List.forall_mem_cons.2 ⟨trivial, List.forall_mem_singleton.2 h⟩

theorem MadtAccess.Below.mono {x : MadtAccess} (h : x.Below n) (hn : n ≤ m) : x.Below m := by
  cases x with
  | header offset => exact Nat.lt_of_lt_of_le h hn
  | payload offset array => exact Nat.lt_of_lt_of_le h hn
  | store => trivial
  | typeString => trivial

theorem madtLoop_below (t : Mem) (old : MadtArray → Nat → List (BitVec 8)) (lastType : BitVec 8)
    (n : Nat) : ∀ a ∈ (madtLoop t n (Madt.start old lastType)).accesses, a.Below (sdtLength t) :=
  (Madt.start_onTrack t old lastType).accesses (fun _ _ hr => recordAccesses_below hr.lt)
    (fun _ hno => nomatch hno) n

section Records
variable (hal : h.Aliases A k g) (hp : HhdmPlaced k.higherHalf)
  (hv : 2 ^ 64 - 2 ^ 31 ≤ k.virtualBase) (ha : a < 2 ^ 32)
include hal hp hv ha

theorem steady_recordReads (arrays : MadtArray → Nat) (hl : ∀ x ∈ l, x.Below (2 ^ 32)) :
    Steady A k U g (AcpiRun.recordReads ram h (a + k.higherHalf) arrays l) := by
  induction l with
  | nil => exact Steady.nil
  | cons x l ih =>
    obtain ⟨hx, hl⟩ := List.forall_mem_cons.1 hl
    have hrest : Steady A k U g (if h.Allows ram (a + k.higherHalf) arrays x then
        AcpiRun.recordReads ram h (a + k.higherHalf) arrays l else []) := by
      split
      · exact ih hl
      · exact Steady.nil
    cases x with
    | header offset =>
      have hlt : offset < 2 ^ 32 := hx
      have hone := hrest.read hal (a := a + offset) (n := 2) fun i hi =>
        shown_of_lt hp hv (by omega)
      rw [Nat.add_right_comm] at hone
      exact hone
    | payload offset array =>
      have hlt : offset < 2 ^ 32 := hx
      have hsize : array.size ≤ 14 := by cases array <;> decide
      have hone := hrest.read hal (a := a + offset + 2) (n := array.size) fun i hi =>
        shown_of_lt hp hv (by omega)
      rw [Nat.add_right_comm, Nat.add_right_comm a] at hone
      exact hone
    | store array index => exact hrest
    | typeString type => exact hrest

theorem tracks_parseRecords (lastType : BitVec 8) (arrays : MadtArray → Nat) :
    AcpiRun.Tracks A k U g
      (AcpiRun.parseRecords ram lastType h (a + k.higherHalf) arrays)
      fun g' y => y.2.Aliases A k g' := by
  have hsteady : Steady A k U g
      (AcpiRun.parseRecords ram lastType h (a + k.higherHalf) arrays).events := by
    rw [AcpiRun.parseRecords]
    dsimp only
    split
    · exact Steady.nil
    · rw [Nat.add_right_comm]
      apply Steady.read hal fun i hi => shown_of_lt hp hv (by omega)
      apply steady_recordReads hal hp hv ha
      intro x hx
      have hlt : sdtLength (h.view ram (a + k.higherHalf)) < 2 ^ 32 := load_lt _ 4 4
      have hbelow := madtLoop_below (h.view ram (a + k.higherHalf)) (oldEntries h.bytes arrays)
        lastType (sdtLength (h.view ram (a + k.higherHalf)))
      exact (hbelow x (List.mem_reverse.1 hx)).mono (Nat.le_of_lt hlt)
  refine ⟨hsteady.1, fun y hy => ?_⟩
  rw [hsteady.2]
  rw [AcpiRun.parseRecords] at hy
  dsimp only at hy
  split at hy
  · cases hy
  · obtain ⟨w, _, hy⟩ := bind_ok hy
    cases hy
    exact hal

end Records

section Tables
variable (hal : h.Aliases A k g) (hk : k.Regular) (hp : HhdmPlaced k.higherHalf)
  (hv : 2 ^ 64 - 2 ^ 31 ≤ k.virtualBase)
include hal hk hp hv

theorem tracks_parseMadtAt (ha : a < 2 ^ 32) (hU : U .madt (a + k.higherHalf))
    (lastType : BitVec 8) :
    AcpiRun.Tracks A k U g (AcpiRun.parseMadtAt A ram lastType h (a + k.higherHalf))
      fun g' y => y.2.Aliases A k g' := by
  have huse : AcpiRun.Tracks A k U g (Traced.emit (.uses .madt (a + k.higherHalf)))
      fun g' _ => g' = g := Traced.Tracks.emit hU rfl
  apply huse.bind_same
  intro _ _
  apply (tracks_allocArrays hal hk hp hv ha madtArrays fun _ => 0).bind
  rintro ⟨arrays, h'⟩ g' _ ⟨rfl, hal'⟩
  dsimp only
  rw [Nat.add_right_comm]
  apply (tracks_reads hal' fun i hi => shown_of_lt hp hv (by omega)).bind_same
  intro _ _
  exact tracks_parseRecords hal' hp hv ha lastType arrays

omit hk in
theorem tracks_facsPointer (ha : a < 2 ^ 32) (hU : U .fadt (a + k.higherHalf)) :
    AcpiRun.Tracks A k U g (AcpiRun.facsPointer ram h (a + k.higherHalf)) fun g' _ => g' = g := by
  have huse : AcpiRun.Tracks A k U g (Traced.emit (.uses .fadt (a + k.higherHalf)))
      fun g' _ => g' = g := Traced.Tracks.emit hU rfl
  have hload : ∀ o n, o + n ≤ 256 → AcpiRun.Tracks A k U g
      (AcpiRun.loadAt ram h (a + k.higherHalf + o) n) fun g' _ => g' = g := by
    intro o n ho
    rw [Nat.add_right_comm]
    exact tracks_loadAt hal fun i hi => shown_of_lt hp hv (by omega)
  apply huse.bind_same
  intro _ _
  apply (hload 48 4 (by decide)).bind_same
  intro _ _
  apply (tracks_logIf _ _ _).bind_same
  intro _ _
  apply (hload 36 4 (by decide)).bind_same
  intro firmwareCtrl _
  split
  · exact Traced.Tracks.pure rfl
  · apply (hload 132 8 (by decide)).bind_same
    intro xFirmwareControl _
    split
    · have hlog : AcpiRun.Tracks A k U g
          (Traced.emit (.log .wrn "Uing X_FACS, this might not work!")) fun g' _ => g' = g :=
        Traced.Tracks.emit trivial rfl
      apply hlog.bind_same
      intro _ _
      exact Traced.Tracks.pure rfl
    · exact Traced.Tracks.call fun _ _ => rfl

end Tables

/-- The tables that pass the checks of `bootstrap_acpi` are among those of `U`. -/
structure UsesChecked (A : FrameAllocator σ) (k : KernelLayout) (ram : Mem)
    (U : AcpiTable → Nat → Prop) : Prop where
  rsdt : ∀ {h : Heap σ} {g a}, h.Aliases A k g → a < 2 ^ 32 →
    checkHeaderSignature A ram h (a + k.higherHalf) "RSDT" = .ok () →
    checksumAt ram h (a + k.higherHalf) = .ok () → U .rsdt (a + k.higherHalf)
  madt : ∀ {h h' : Heap σ} {g g' rsdt a}, h.Aliases A k g → h'.Aliases A k g' → rsdt < 2 ^ 32 →
    a < 2 ^ 32 →
    findTable A ram k.higherHalf h (rsdt + k.higherHalf) "APIC" = .ok (a + k.higherHalf, h') →
    checksumAt ram h' (a + k.higherHalf) = .ok () → U .madt (a + k.higherHalf)
  fadt : ∀ {h h' : Heap σ} {g g' rsdt a}, h.Aliases A k g → h'.Aliases A k g' → rsdt < 2 ^ 32 →
    a < 2 ^ 32 →
    findTable A ram k.higherHalf h (rsdt + k.higherHalf) "FACP" = .ok (a + k.higherHalf, h') →
    checksumAt ram h' (a + k.higherHalf) = .ok () → U .fadt (a + k.higherHalf)

theorem usesChecked_all : UsesChecked A k ram fun _ _ => True :=
  ⟨fun _ _ _ _ => trivial, fun _ _ _ _ _ _ => trivial, fun _ _ _ _ _ _ => trivial⟩

section Bootstrap
variable (hal : h.Aliases A k g) (hk : k.Regular) (hp : HhdmPlaced k.higherHalf)
  (hv : 2 ^ 64 - 2 ^ 31 ≤ k.virtualBase) (hU : UsesChecked A k ram U)
include hal hk hp hv hU

theorem tracks_parseRsdt (hrsdt : rsdt < 2 ^ 32) (lastType : BitVec 8) :
    AcpiRun.Tracks A k U g (AcpiRun.parseRsdt A ram k.higherHalf lastType h rsdt)
      fun g' y => y.2.Aliases A k g' := by
  have hroom := hp.room
  have hvirt : u64 (rsdt + k.higherHalf) = rsdt + k.higherHalf := u64_of_lt (by omega)
  rw [AcpiRun.parseRsdt, hvirt]
  apply (tracks_mapDirect hal hk hp (shown_of_lt hp hv (by omega))).bind
  rintro ⟨mapped, h₁⟩ g₁ _ hal₁
  dsimp only
  split
  · exact Traced.Tracks.call (fun _ hno => nomatch hno)
  apply (tracks_checkHeaderSignature hal₁ hk hp hv hrsdt "RSDT").bind_same
  intro _ hsig
  rw [AcpiRun.checkHeaderSignature_result] at hsig
  apply (tracks_checksumAt hal₁ hp hv hrsdt).bind_same
  intro _ hsum
  rw [AcpiRun.checksumAt_result] at hsum
  have huse := hU.rsdt hal₁ hrsdt hsig hsum
  apply (tracks_findTable hal₁ hk hp hv hrsdt huse "APIC").bind
  rintro ⟨madtHeader, h₂⟩ g₂ hapic ⟨hal₂, hheader⟩
  rw [AcpiRun.findTable_result] at hapic
  dsimp only at hheader ⊢
  split
  · exact Traced.Tracks.call (fun _ hno => nomatch hno)
  next hmadt =>
  obtain ⟨madt, hlt, rfl⟩ := hheader.resolve_left hmadt
  apply (tracks_checksumAt hal₂ hp hv hlt).bind_same
  intro _ hmadtSum
  rw [AcpiRun.checksumAt_result] at hmadtSum
  have huseMadt := hU.madt hal₁ hal₂ hrsdt hlt hapic hmadtSum
  apply (tracks_parseMadtAt hal₂ hk hp hv hlt huseMadt lastType).bind
  rintro ⟨w, h₃⟩ g₃ _ hal₃
  apply (tracks_findTable hal₃ hk hp hv hrsdt huse "FACP").bind
  rintro ⟨fadtHeader, h₄⟩ g₄ hfacp ⟨hal₄, hheader⟩
  rw [AcpiRun.findTable_result] at hfacp
  dsimp only at hheader ⊢
  split
  · exact Traced.Tracks.call (fun _ hno => nomatch hno)
  next hfadt =>
  obtain ⟨fadt, hlt', rfl⟩ := hheader.resolve_left hfadt
  apply (tracks_checksumAt hal₄ hp hv hlt').bind_same
  intro _ hfadtSum
  rw [AcpiRun.checksumAt_result] at hfadtSum
  have huseFadt := hU.fadt hal₃ hal₄ hrsdt hlt' hfacp hfadtSum
  apply (tracks_facsPointer hal₄ hp hv hlt' huseFadt).bind_same
  intro facsPtr _
  rw [Nat.add_right_comm]
  apply (tracks_loadAt hal₄ fun i hi => shown_of_lt hp hv (by omega)).bind_same
  intro _ _
  exact Traced.Tracks.pure hal₄

end Bootstrap

theorem checkRsdp_lt (h₀ : checkRsdp A ram h virt = .ok x) : x < 2 ^ 32 := by
  obtain ⟨_, _, h₀⟩ := bind_ok h₀
  dsimp only at h₀
  split at h₀
  · exact (signaturePanic_error h₀).elim
  · split at h₀
    · cases h₀
    · cases h₀
      exact load_lt _ 16 4

theorem tracks_checkRsdp (hal : h.Aliases A k g) (hk : k.Regular) (hp : HhdmPlaced k.higherHalf)
    (hs : ∀ i < 20, k.Shown (a + i))
    (hU : h.reads ram (a + k.higherHalf) 20 = .ok () →
      memcmp (h.view ram (a + k.higherHalf)) (cString "RSD PTR ") 7 = 0 →
      U .rsdp (a + k.higherHalf)) :
    AcpiRun.Tracks A k U g (AcpiRun.checkRsdp A ram h (a + k.higherHalf)) fun g' _ => g' = g := by
  apply (tracks_reads hal hs).bind_same
  intro _ hreads
  dsimp only
  split
  · apply tracks_signaturePanic hal hk hp
    intro now _
    exact Steady.nil
  next hsig =>
  have huse : AcpiRun.Tracks A k U g (Traced.emit (.uses .rsdp (a + k.higherHalf)))
      fun g' _ => g' = g := Traced.Tracks.emit (hU hreads (not_not.1 hsig)) rfl
  apply huse.bind_same
  intro _ _
  apply (tracks_logIf _ _ _).bind_same
  intro _ _
  split
  · exact Traced.Tracks.call (fun _ hno => nomatch hno)
  · exact Traced.Tracks.pure rfl

/-- Every event of `bootstrap_acpi` on a response is sound for the aliases mapped so far. -/
theorem tracks_bootstrapAcpi {pl : Platform} (hal : h.Aliases A k g) (hk : k.Regular)
    (hp : HhdmPlaced k.higherHalf) (hv : 2 ^ 64 - 2 ^ 31 ≤ k.virtualBase)
    (hU : UsesChecked A k pl.ram U) (hrsdp : getRsdp pl.rsdp = some rsdp)
    (hs : ∀ i < 20, k.Shown (rsdp + i))
    (hUrsdp : ∀ h₁, h.mapDirect A k.higherHalf rsdp acpiFlags = .ok (true, h₁) →
      h₁.reads pl.ram (rsdp + k.higherHalf) 20 = .ok () →
      memcmp (h₁.view pl.ram (rsdp + k.higherHalf)) (cString "RSD PTR ") 7 = 0 →
      U .rsdp (rsdp + k.higherHalf)) :
    AcpiRun.Tracks A k U g (AcpiRun.bootstrapAcpi A k.higherHalf pl h)
      fun g' y => y.2.Aliases A k g' := by
  have hfirst : k.Shown rsdp := hs 0 (by decide)
  rw [AcpiRun.bootstrapAcpi, hrsdp]
  dsimp only
  rw [u64_of_lt hfirst.lt]
  apply (tracks_mapDirect hal hk hp hfirst).bind
  rintro ⟨mapped, h₁⟩ g₁ hmap hal₁
  rw [AcpiRun.mapDirect_result] at hmap
  dsimp only
  split
  · have hlog : AcpiRun.Tracks A k U g₁ (Traced.emit (.log .err "Could not map RSDP!"))
        fun g' _ => g' = g₁ := Traced.Tracks.emit trivial rfl
    apply hlog.bind_same
    intro _ _
    exact Traced.Tracks.pure hal₁
  next hmapped =>
  rw [Bool.not_eq_false] at hmapped
  rw [hmapped] at hmap
  apply (tracks_checkRsdp hal₁ hk hp hs (hUrsdp h₁ hmap)).bind_same
  intro rsdt hrsdt
  rw [AcpiRun.checkRsdp_result] at hrsdt
  exact tracks_parseRsdt hal₁ hk hp hv hU (checkRsdp_lt hrsdt) pl.lastType

end AdaOS
