import AdaOS.AddressSpace

namespace AdaOS
set_option autoImplicit true
open Radix

/-- What the hardware allows on a page: user access and write access take the right at every
level, and one level is enough to forbid execution. -/
structure Permissions where
  user : Bool
  writable : Bool
  nx : Bool
  deriving DecidableEq, Repr

def permissionsFrom (mem : BitVec 64 → Fin 512 → BitVec 64) : BitVec 64 → List (Fin 512) →
    Option Permissions
  | _, [] => some ⟨true, true, false⟩
  | t, i :: p =>
    if hasFlag (mem t i) ptePresent then
      (permissionsFrom mem (pteGetAddr (mem t i)) p).map fun a =>
        ⟨hasFlag (mem t i) pteUser && a.user, hasFlag (mem t i) pteWritable && a.writable,
          hasFlag (mem t i) pteNx || a.nx⟩
    else none

def Vmm.permissions (v : Vmm σ) (root virt : BitVec 64) : Option Permissions :=
  permissionsFrom v.mem root (tablePath virt ++ [ptIndex virt])

/-- The permissions that a caller of `map_page` asks for. -/
def requested (flags : BitVec 64) : Permissions :=
  ⟨hasFlag flags pteUser, hasFlag flags pteWritable, hasFlag flags pteNx⟩

/-- The entries of a path that are there all have the flag. -/
def grantsFrom (mem : BitVec 64 → Fin 512 → BitVec 64) (flag : BitVec 64) :
    BitVec 64 → List (Fin 512) → Bool
  | _, [] => true
  | t, i :: p =>
    match pteNext (mem t i) with
    | none => true
    | some c => hasFlag (mem t i) flag && grantsFrom mem flag c p

/-- The pagemaps calls of `map_page` start from: an empty top level, or the one `setup_vmm` hangs
the tables of the higher half into. -/
inductive FirstMap (A : FrameAllocator σ) (root : BitVec 64) : Vmm σ → Prop where
  | empty : (∀ i, v.mem root i = 0) → v.trace = [.taken root] → root ∈ A.held v.frames →
      FirstMap A root v
  | kernel : setupPml4 A ⟨mem, s, []⟩ = .ok (root, v) → FirstMap A root v

variable {σ : Type} {A : FrameAllocator σ} {v v' w v₀ : Vmm σ} {root : BitVec 64}
  {mem mem' : BitVec 64 → Fin 512 → BitVec 64}

theorem FirstMap.owned (h : FirstMap A root v) : v.Owned A root := by
  cases h with
  | empty hz ht hh => exact .single hz ht hh
  | kernel hs => exact (setupPml4_owned rfl hs).1

theorem FirstMap.openTables (h : FirstMap A root v) : v.OpenTables root := by
  cases h with
  | empty hz _ _ => exact Vmm.openTables_of_empty hz
  | kernel hs => exact (setupPml4_maps rfl hs).openTables

theorem grantsFrom_congr (h : ∀ p i r u, q = p ++ i :: r → follow pteNext mem t p = some u →
    mem' u i = mem u i) : grantsFrom mem' flag t q = grantsFrom mem flag t q := by
  induction q generalizing t with
  | nil => rfl
  | cons i q ih =>
    have he : mem' t i = mem t i := h [] i q t rfl rfl
    rw [grantsFrom, grantsFrom, he]
    cases hc : pteNext (mem t i) with
    | none => rfl
    | some c =>
      apply congrArg (hasFlag (mem t i) flag && ·)
      apply ih
      intro p j r u hq hu
      apply h (i :: p) j r u
      · rw [hq, List.cons_append]
      · rw [follow, hc]
        exact hu

theorem grantsFrom_empty (h : ∀ i, mem t i = 0) : grantsFrom mem flag t q = true := by
  cases q with
  | nil => rfl
  | cons i q =>
    rw [grantsFrom, h]
    rfl

/-- A tree that grows keeps its tables and the entries that point to them. -/
theorem Grows.keeps (h : Grows A root v w) (hv : v.Tree root) (hh : v.TablesHeld A root)
    (ht : v.tableAt root p = some t) (hp : p.length < 3) :
    w.tableAt root p = some t ∧ ∀ i c, pteNext (v.mem t i) = some c → w.mem t i = v.mem t i := by
  induction h with
  | refl => exact ⟨ht, fun _ _ _ => rfl⟩
  | refused _ hr ih =>
    rw [hr.tableAt, hr.mem]
    exact ih
  | linked hg hl ih =>
    obtain ⟨hv', hh'⟩ := hg.inv hv hh
    obtain ⟨hat, hentry⟩ := ih
    constructor
    · rw [hl.tableAt hv' hh' (Nat.le_of_lt hp), if_neg]
      · exact hat
      · rintro rfl
        rw [hl.tableAt_old] at hat
        cases hat
    · intro i c hc
      rw [← hentry i c hc]
      apply hl.mem_of_ne hh' ⟨p, Nat.le_of_lt hp, hat⟩
      by_contra hsame
      rw [not_or, not_not, not_not] at hsame
      obtain ⟨rfl, rfl⟩ := hsame
      have hfree := hl.free
      rw [hentry i c hc, hc] at hfree
      cases hfree

theorem Linked.mem_self (h : Linked A root v v' p t i f e) (hh : v.TablesHeld A root) :
    v'.mem t i = e := by
  have htf : t ≠ f := by
    rintro rfl
    exact h.not_table hh ⟨p, Nat.le_of_lt h.short, h.table⟩
  rw [h.mem, Function.update_of_ne htf, setEntry_self]

theorem getOrAllocateNextLevel_entry (hh : v.TablesHeld A root) (ht : v.tableAt root p = some t)
    (hp : p.length < 3) (hf : flags ≠ 0) (hfree : pteNext (v.mem t i) = none)
    (h : getOrAllocateNextLevel A v t i flags = .ok (some c, w)) :
    w.mem t i = c ||| flags ∧ pteGetAddr c = c := by
  rw [getOrAllocateNextLevel] at h
  split at h
  · next hpres =>
    rw [pteNext, if_pos hpres] at hfree
    cases hfree
  · obtain ⟨⟨o, v₁⟩, hall, h⟩ := bind_ok h
    rcases Vmm.ppAlloc_cases hall with ⟨rfl, _⟩ | ⟨f, rfl, hc⟩
    · cases h
    · cases h
      have hne : t ≠ f.addr := by
        rintro rfl
        exact hc.fresh (hh _ ⟨p, Nat.le_of_lt hp, ht⟩)
      refine ⟨?_, f.aligned⟩
      simp only [Vmm.clear, Vmm.write, Function.update_of_ne hne, Function.update_self, if_pos hf]

/-- On its way down `map_page` gives the tables it makes the flags asked for, and leaves those it
finds as they are. -/
theorem descend_grants (hv : v.Tree root) (hh : v.TablesHeld A root)
    (ht : v.tableAt root q = some t) (hlen : q.length + p.length ≤ 3)
    (hflag : pteAddrMask &&& flag = 0)
    (hd : descend A (tableFlags flags) t p v = .ok (some pt, w)) :
    Grows A root v w ∧ w.tableAt root (q ++ p) = some pt ∧
      grantsFrom w.mem flag t p = (grantsFrom v.mem flag t p &&
        (hasFlag (tableFlags flags) flag || (follow pteNext v.mem t p).isSome)) := by
  induction p generalizing q t v with
  | nil =>
    cases hd
    rw [follow, Option.isSome_some, Bool.or_true, List.append_nil]
    exact ⟨.refl, ht, rfl⟩
  | cons i p ih =>
    rw [List.length_cons] at hlen
    rw [List.append_cons]
    have hstep : (q ++ [i]).length + p.length ≤ 3 := by
      rw [List.length_append, List.length_singleton]
      omega
    obtain ⟨⟨r, u⟩, hget, hrest⟩ := bind_ok hd
    obtain ⟨hl, hne, hf⟩ := tableFlags_spec flags
    rcases getOrAllocateNextLevel_cases hh ht (by omega) hl (.inr hf) hget with
      ⟨c, rfl, hc, rfl⟩ | ⟨rfl, _, _⟩ | ⟨f, e, rfl, hlink⟩
    · obtain ⟨hg, hat, hrec⟩ := ih hv hh ((follow_step ht).trans hc) hstep hrest
      have hkeep := (hg.keeps hv hh ht (by omega)).2 i c hc
      refine ⟨hg, hat, ?_⟩
      rw [grantsFrom, grantsFrom, follow, hkeep, hc, Option.bind_some]
      simp only [hrec, Bool.and_assoc]
    · cases hrest
    · have hu := hlink.tree hv hh
      have hheld := hlink.tablesHeld hv hh
      obtain ⟨hentry, haddr⟩ := getOrAllocateNextLevel_entry hh ht (by omega) hne hlink.free hget
      obtain ⟨hg, hat, hrec⟩ := ih hu hheld (hlink.tableAt_self hv hh) hstep hrest
      have hnext : pteNext (u.mem t i) = some f := by
        rw [hlink.mem_self hh]
        exact hlink.entry
      have htu : u.tableAt root q = some t := by
        rw [hlink.tableAt hv hh (by omega), if_neg (by simp), ht]
      have hkeep := (hg.keeps hu hheld htu (by omega)).2 i f hnext
      have hblank : grantsFrom u.mem flag f p = true :=
        grantsFrom_empty fun j => by rw [hlink.mem, Function.update_self]
      have hgrant : hasFlag (f ||| tableFlags flags) flag = hasFlag (tableFlags flags) flag := by
        rw [hasFlag_or, hasFlag_of_addr haddr hflag, Bool.false_or]
      refine ⟨(Grows.refl.linked hlink).trans hg, hat, ?_⟩
      rw [grantsFrom, grantsFrom, follow, hkeep, hnext, hlink.free, hentry, Option.bind_none]
      simp only [hrec, hblank, hgrant, Option.isSome_none, Bool.or_false, Bool.true_and]
      cases hasFlag (tableFlags flags) flag <;> simp

/-- The rights on a page whose tables are there: write access and execution are up to the leaf
entry, user access to every entry on the way. -/
theorem Vmm.OpenTables.permissionsFrom_eq (ho : v.OpenTables root)
    (ht : v.tableAt root p = some t) (hlen : p.length + q.length ≤ 3)
    (hq : follow pteNext v.mem t q = some pt) :
    permissionsFrom v.mem t (q ++ [j]) =
      if hasFlag (v.mem pt j) ptePresent then
        some ⟨grantsFrom v.mem pteUser t q && hasFlag (v.mem pt j) pteUser,
          hasFlag (v.mem pt j) pteWritable, hasFlag (v.mem pt j) pteNx⟩
      else none := by
  induction q generalizing p t with
  | nil =>
    cases hq
    simp only [List.nil_append, permissionsFrom, Option.map_some, Bool.and_true, Bool.or_false,
      grantsFrom, Bool.true_and]
  | cons i q ih =>
    rw [List.length_cons] at hlen
    rw [follow] at hq
    obtain ⟨c, hc, hq⟩ := Option.bind_eq_some_iff.1 hq
    obtain ⟨hw, hnx⟩ := ho p t i (by omega) ht (by rw [hc]; exact Option.some_ne_none c)
    have hrec := ih ((follow_step ht).trans hc) (by simp; omega) hq
    have hpres : hasFlag (v.mem t i) ptePresent = true ∧ pteGetAddr (v.mem t i) = c := by
      rw [pteNext] at hc
      split at hc
      · next hpres =>
        cases hc
        exact ⟨hpres, rfl⟩
      · cases hc
    rw [List.cons_append, permissionsFrom, if_pos hpres.1, hpres.2, hrec, grantsFrom, hc, hw, hnx]
    split
    · simp only [Option.map_some, Bool.true_and, Bool.false_or, Bool.and_assoc]
    · rfl

theorem hasFlag_pageBase (hm : ~~~0xfff &&& flag = flag) :
    hasFlag (pageBase phys) flag = hasFlag phys flag := by
  rw [hasFlag, hasFlag, pageBase, BitVec.and_assoc, hm]

theorem hasFlag_leaf (flags : BitVec 64) (hp : hasFlag ptePresent flag = false) :
    hasFlag (pageBase phys ||| flags ||| ptePresent) flag =
      (hasFlag (pageBase phys) flag || hasFlag flags flag) := by
  rw [hasFlag_or, hasFlag_or, hp, Bool.or_false]

theorem LeafSet.grantsFrom_eq (h : LeafSet root v v' (tablePath virt) pt i e) (hv : v.Tree root) :
    grantsFrom v'.mem flag root (tablePath virt) = grantsFrom v.mem flag root (tablePath virt) := by
  apply grantsFrom_congr
  intro p j r u hsplit hu
  have hshort : p.length < 3 := by
    have hlen := congrArg List.length hsplit
    rw [h.deep, List.length_append, List.length_cons] at hlen
    omega
  have hne : u ≠ pt := by
    rintro rfl
    have hp := hv p _ u (Nat.le_of_lt hshort) (Nat.le_of_eq h.deep) hu h.table
    rw [hp, h.deep] at hshort
    exact Nat.lt_irrefl 3 hshort
  rw [h.mem, setEntry_node hne]

theorem mapPage_grants (flag : BitVec 64) (hv : v.Tree root) (hh : v.TablesHeld A root)
    (hflag : pteAddrMask &&& flag = 0) (hm : mapPage A v root virt phys flags = .ok (true, v')) :
    ∃ w pt, Grows A root v w ∧
      LeafSet root w v' (tablePath virt) pt (ptIndex virt)
        (pageBase phys ||| flags ||| ptePresent) ∧
      grantsFrom v'.mem flag root (tablePath virt) =
        (grantsFrom v.mem flag root (tablePath virt) &&
          (hasFlag (tableFlags flags) flag || (v.tableAt root (tablePath virt)).isSome)) := by
  obtain ⟨_, _, _, hindex⟩ := pageNumber_eq_iff.1 (pageBase_page virt)
  rw [mapPage_eq, hindex] at hm
  obtain ⟨⟨r, w⟩, hd, hm⟩ := bind_ok hm
  cases r with
  | none => cases hm
  | some pt =>
    cases hm
    obtain ⟨hg, hat, hgrant⟩ := descend_grants (q := []) hv hh rfl (Nat.le_of_eq rfl) hflag hd
    have hset : LeafSet root w (w.write pt (ptIndex virt) (pageBase phys ||| flags ||| ptePresent))
        (tablePath virt) pt (ptIndex virt) (pageBase phys ||| flags ||| ptePresent) :=
      ⟨hat, rfl, rfl, rfl, rfl⟩
    exact ⟨w, pt, hg, hset, (hset.grantsFrom_eq (hg.inv hv hh).1).trans hgrant⟩

/-- What `map_page` grants: what it was asked for, less user access where a table that was there
before withholds it, and execution only where bit 63 of the physical address is clear too. -/
theorem mapPage_permissions (hv : v.Tree root) (hh : v.TablesHeld A root) (ho : v.OpenTables root)
    (hm : mapPage A v root virt phys flags = .ok (true, v')) :
    v'.permissions root virt =
      some ⟨grantsFrom v.mem pteUser root (tablePath virt) && hasFlag flags pteUser,
        hasFlag flags pteWritable, hasFlag phys pteNx || hasFlag flags pteNx⟩ := by
  obtain ⟨w, pt, hg, hset, hgrant⟩ := mapPage_grants pteUser hv hh (by decide) hm
  have hw := (hg.inv hv hh).1
  have hopen := hset.openTables hw (hg.openTables hv hh ho)
  have hat := (hset.tableAt hw (Nat.le_of_eq hset.deep)).trans hset.table
  have hleaf : v'.mem pt (ptIndex virt) = pageBase phys ||| flags ||| ptePresent := by
    rw [hset.mem, setEntry_self]
  have hlow {flag : BitVec 64} (hm : ~~~0xfff &&& flag = 0) :
      hasFlag (pageBase phys) flag = false := by
    rw [hasFlag, pageBase, BitVec.and_assoc, hm]
    simp
  have hpresent := hasFlag_present_or (pageBase phys) flags
  rw [Vmm.permissions,
    hopen.permissionsFrom_eq (p := []) (q := tablePath virt) rfl (Nat.le_refl 3) hat, hleaf,
    if_pos hpresent, hgrant, hasFlag_leaf flags rfl, hasFlag_leaf flags rfl, hasFlag_leaf flags rfl,
    hlow (by decide), hlow (by decide), hasFlag_pageBase (by decide), Bool.false_or, Bool.false_or]
  have huser : hasFlag (tableFlags flags) pteUser = hasFlag flags pteUser := by
    rw [tableFlags]
    split
    · next h => rw [h]; rfl
    · next h => rw [Bool.eq_false_iff.2 h]; rfl
  rw [huser]
  cases hasFlag flags pteUser with
  | false => rw [Bool.and_false, Bool.and_false]
  | true => rw [Bool.true_or, Bool.and_true]

/-- `map_page` grants the access it was asked for, in every pagemap its calls build, exactly when
user access is not asked for behind a table without it and the physical address does not forbid
execution by itself. -/
theorem mapPage_permissions_iff (h₀ : FirstMap A root v₀) (hr : VmmRun A root v₀ v)
    (hm : mapPage A v root virt phys flags = .ok (true, v')) :
    v'.permissions root virt = some (requested flags) ↔
      (hasFlag flags pteUser = true → grantsFrom v.mem pteUser root (tablePath virt) = true) ∧
        (hasFlag phys pteNx = true → hasFlag flags pteNx = true) := by
  have ho := hr.owned h₀.owned
  have hopen := hr.openTables h₀.owned h₀.openTables
  rw [mapPage_permissions ho.tree ho.held hopen hm, requested, Option.some.injEq,
    Permissions.mk.injEq]
  generalize grantsFrom v.mem pteUser root (tablePath virt) = granted
  generalize hasFlag flags pteUser = user
  generalize hasFlag flags pteNx = nx
  generalize hasFlag phys pteNx = high
  cases granted <;> cases user <;> cases nx <;> cases high <;> simp

/-- Two pages for the user share their tables, which give both the access. -/
theorem mapPage_permissions_shared : ∃ v v' v'' : Vmm (OwnedPmm oneChunk),
    FirstMap (pmmFrames oneChunk_sound) 0x1002000 v ∧
    mapPage (pmmFrames oneChunk_sound) v 0x1002000 0x400000 0x5000 (pteWritable ||| pteUser) =
      .ok (true, v') ∧
    v'.permissions 0x1002000 0x400000 = some (requested (pteWritable ||| pteUser)) ∧
    mapPage (pmmFrames oneChunk_sound) v' 0x1002000 0x401000 0x6000 (pteWritable ||| pteUser) =
      .ok (true, v'') ∧
    v''.permissions 0x1002000 0x401000 = some (requested (pteWritable ||| pteUser)) := by
  obtain ⟨x, hx, hl⟩ := oneChunk_frames
  obtain ⟨v', hm, hl', _⟩ := mapPage_lasts (v := ⟨fun _ _ => 0, x, [.taken 0x1002000]⟩) (n := 3)
    (hl.mono (by decide)) 0x1002000 0x400000 0x5000 (pteWritable ||| pteUser)
  obtain ⟨v'', hm', _⟩ := mapPage_lasts (n := 0) hl' 0x1002000 0x401000 0x6000
    (pteWritable ||| pteUser)
  have h₀ : FirstMap (pmmFrames oneChunk_sound) 0x1002000
      ⟨fun _ _ => 0, x, [.taken 0x1002000]⟩ := .empty (fun _ => rfl) rfl hx
  obtain ⟨_, _, _, _, hgrant⟩ := mapPage_grants pteUser h₀.owned.tree h₀.owned.held
    (by decide) hm
  have hshared : grantsFrom v'.mem pteUser 0x1002000 (tablePath 0x401000) = true := by
    have hflag : hasFlag (tableFlags (pteWritable ||| pteUser)) pteUser = true := by decide
    rw [tablePath_eq (y := 0x400000) (by decide), hgrant, hflag, grantsFrom_empty fun _ => rfl]
    rfl
  have hfirst := (mapPage_permissions_iff h₀ .start hm).2
  have hsecond := (mapPage_permissions_iff h₀ (VmmRun.start.map hm) hm').2
  have hhigh : hasFlag 0x5000 pteNx = false ∧ hasFlag 0x6000 pteNx = false := by decide
  rw [hhigh.1] at hfirst
  rw [hhigh.2] at hsecond
  exact ⟨_, v', v'', h₀, hm, hfirst ⟨fun _ => grantsFrom_empty fun _ => rfl, fun h => nomatch h⟩,
    hm', hsecond ⟨fun _ => hshared, fun h => nomatch h⟩⟩

/-- A page for the user beside one for the kernel shares its tables, and the user cannot reach
it. -/
theorem mapPage_withheld : ∃ v₀ v v' : Vmm (OwnedPmm oneChunk),
    FirstMap (pmmFrames oneChunk_sound) 0x1002000 v₀ ∧
    VmmRun (pmmFrames oneChunk_sound) 0x1002000 v₀ v ∧
    mapPage (pmmFrames oneChunk_sound) v 0x1002000 0x401000 0x6000 (pteWritable ||| pteUser) =
      .ok (true, v') ∧
    v'.permissions 0x1002000 0x401000 = some ⟨false, true, false⟩ ∧
    v'.permissions 0x1002000 0x401000 ≠ some (requested (pteWritable ||| pteUser)) := by
  obtain ⟨x, hx, hl⟩ := oneChunk_frames
  obtain ⟨v, hm, hl', _⟩ := mapPage_lasts (v := ⟨fun _ _ => 0, x, [.taken 0x1002000]⟩) (n := 3)
    (hl.mono (by decide)) 0x1002000 0x400000 0x5000 pteWritable
  obtain ⟨v', hm', _⟩ := mapPage_lasts (n := 0) hl' 0x1002000 0x401000 0x6000
    (pteWritable ||| pteUser)
  have h₀ : FirstMap (pmmFrames oneChunk_sound) 0x1002000
      ⟨fun _ _ => 0, x, [.taken 0x1002000]⟩ := .empty (fun _ => rfl) rfl hx
  have hr := VmmRun.start.map hm
  obtain ⟨_, _, _, _, hgrant⟩ := mapPage_grants pteUser h₀.owned.tree h₀.owned.held
    (by decide) hm
  have hwithheld : grantsFrom v.mem pteUser 0x1002000 (tablePath 0x401000) = false := by
    have hflag : hasFlag (tableFlags pteWritable) pteUser = false := by decide
    have hnone : Vmm.tableAt (σ := OwnedPmm oneChunk) ⟨fun _ _ => 0, x, [.taken 0x1002000]⟩
        0x1002000 (tablePath 0x400000) = none := by
      rw [Vmm.tableAt, tablePath, follow, pteNext_zero]
      rfl
    rw [tablePath_eq (y := 0x400000) (by decide), hgrant, hflag, hnone]
    exact Bool.and_false _
  have hperm := mapPage_permissions (hr.owned h₀.owned).tree (hr.owned h₀.owned).held
    (hr.openTables h₀.owned h₀.openTables) hm'
  rw [hwithheld] at hperm
  refine ⟨_, v, v', h₀, hr, hm', hperm, ?_⟩
  rw [hperm]
  decide

end AdaOS
