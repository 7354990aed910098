import Utu.Bstring
import Utu.Lib.Outcome
import Utu.Lib.SearchTree

/-!
# The map of members

The hub keeps its members in a red-black tree by their public keys. The tree
comes from a library that asks the comparator of the hub on which side to go
on; members are known by their addresses. `Member_logout` lets other tasks run
before it takes the member out.
-/

namespace Utu.Hub
open Comparator Outcome SearchTree
set_option autoImplicit false

/-! ## The comparator -/

def byteValue (b : UInt8) : Int := b.toNat

theorem byteValue_injective : Function.Injective byteValue := by
  intro a b h
  exact UInt8.toNat_inj.mp (Int.ofNat_inj.mp h)

/-- All that is known of `memcmp(a, b, n)`: the sign of its result is that of the first difference. -/
structure SoundMemcmp (memcmp : Bytes → Bytes → Nat → Int) : Prop where
  below : ∀ a b n, n ≤ a.length → n ≤ b.length →
    (memcmp a b n < 0 ↔ lex byteValue (a.take n) (b.take n) < 0)
  above : ∀ a b n, n ≤ a.length → n ≤ b.length →
    (0 < memcmp a b n ↔ 0 < lex byteValue (a.take n) (b.take n))
  range : ∀ a b n, -2 ^ 31 ≤ memcmp a b n ∧ memcmp a b n < 2 ^ 31

/-- `MEMBER_COMPARATOR`, in the arithmetic of `int` -/
def memberComparator (memcmp : Bytes → Bytes → Nat → Int) (x y : Bytes) : Int :=
  Int.bmod (memcmp x y (min x.length y.length) + (x.length - y.length)) (2 ^ 32)

/-- The keys do not differ before one of them ends. -/
def Agree (x y : Bytes) : Prop := x.take (min x.length y.length) = y.take (min x.length y.length)

/-- Keys that differ before one of them ends are of one length. -/
def Matched (K : Set Bytes) : Prop := ∀ x ∈ K, ∀ y ∈ K, ¬Agree x y → x.length = y.length

section Comparator
variable {memcmp : Bytes → Bytes → Nat → Int} {K : Set Bytes} {x y : Bytes}

/-- `memcmp` on the common length of two keys -/
theorem SoundMemcmp.common (h : SoundMemcmp memcmp) (x y : Bytes) :
    ∃ d, memcmp x y (min x.length y.length) = d ∧ -2 ^ 31 ≤ d ∧ d < 2 ^ 31 ∧ (Agree x y → d = 0) ∧
      (¬Agree x y → (d < 0 ↔ lex byteValue x y < 0) ∧ (0 < d ↔ 0 < lex byteValue x y)) := by
  have hBelow := h.below x y _ (Nat.min_le_left _ _) (Nat.min_le_right _ _)
  have hAbove := h.above x y _ (Nat.min_le_left _ _) (Nat.min_le_right _ _)
  refine ⟨_, rfl, (h.range x y _).1, (h.range x y _).2, ?_, ?_⟩
  · intro hAgree
    rw [hAgree, (lex_eq_zero byteValue_injective _ _).mpr rfl] at hBelow hAbove
    omega
  · intro hDiffer
    rw [lex_of_take_ne byteValue_injective hDiffer]
    exact ⟨hBelow, hAbove⟩

/-- On matched keys the comparator has the sign of the lexicographic order. -/
theorem SoundMemcmp.sign (h : SoundMemcmp memcmp) (hMatched : Matched K) (hLen : ∀ k ∈ K, k.length < 2 ^ 31)
    (hx : x ∈ K) (hy : y ∈ K) :
    (memberComparator memcmp x y < 0 ↔ lex byteValue x y < 0) ∧
      (0 < memberComparator memcmp x y ↔ 0 < lex byteValue x y) := by
  have hX := hLen x hx
  have hY := hLen y hy
  obtain ⟨d, hd, hLow, hHigh, hZero, hSign⟩ := h.common x y
  rw [memberComparator, hd]
  by_cases hAgree : Agree x y
  · obtain ⟨hBelow, hAbove⟩ := lex_of_take_eq (f := byteValue) hAgree
    rw [hZero hAgree, Int.bmod_eq_of_le (by omega) (by omega), hBelow, hAbove]
    omega
  · rw [hMatched x hx y hy hAgree, Int.sub_self, Int.add_zero, Int.bmod_eq_of_le (by omega) (by omega)]
    exact hSign hAgree

theorem SoundMemcmp.orders (h : SoundMemcmp memcmp) (hMatched : Matched K)
    (hLen : ∀ k ∈ K, k.length < 2 ^ 31) : Orders (memberComparator memcmp) K := by
  apply (lex_orders byteValue_injective K).of_signs
  · intro x hx y hy
    exact (h.sign hMatched hLen hx hy).1
  · intro x hx y hy
    exact (h.sign hMatched hLen hx hy).2

/-- A `memcmp` with these results for larger and smaller. -/
def memcmpWith (up down : Int) (a b : Bytes) (n : Nat) : Int :=
  if 0 < lex byteValue (a.take n) (b.take n) then up
  else if lex byteValue (a.take n) (b.take n) < 0 then down else 0

theorem memcmpWith_sound {up down : Int} (hUp : 0 < up ∧ up < 2 ^ 31) (hDown : -2 ^ 31 ≤ down ∧ down < 0) :
    SoundMemcmp (memcmpWith up down) where
  below := by
    intro a b n _ _
    rw [memcmpWith]
    split_ifs <;> omega
  above := by
    intro a b n _ _
    rw [memcmpWith]
    split_ifs <;> omega
  range := by
    intro a b n
    rw [memcmpWith]
    split_ifs <;> omega

/-- Of two keys that differ in their common length and in length, some `memcmp` makes a mess. -/
theorem not_orders_of_lengths (hLen : ∀ k ∈ K, k.length < 2 ^ 31) (hx : x ∈ K) (hy : y ∈ K)
    (hAbove : 0 < lex byteValue x y) (hDiffer : ¬Agree x y) (hNe : x.length ≠ y.length) :
    ∃ memcmp, SoundMemcmp memcmp ∧ ¬Orders (memberComparator memcmp) K := by
  have hX := hLen x hx
  have hY := hLen y hy
  have hCommon : 0 < lex byteValue (x.take (min x.length y.length)) (y.take (min x.length y.length)) := by
    rwa [← lex_of_take_ne byteValue_injective hDiffer]
  have hBack : lex byteValue (y.take (min y.length x.length)) (x.take (min y.length x.length)) < 0 := by
    rw [Nat.min_comm, lex_flip]
    omega
  have hUp : ∀ up down, memberComparator (memcmpWith up down) x y = Int.bmod (up + (x.length - y.length)) (2 ^ 32) := by
    intro up down
    rw [memberComparator, memcmpWith, if_pos hCommon]
  have hDown : ∀ up down,
      memberComparator (memcmpWith up down) y x = Int.bmod (down + (y.length - x.length)) (2 ^ 32) := by
    intro up down
    rw [memberComparator, memcmpWith, if_neg (by omega), if_pos hBack]
  rcases Nat.lt_or_gt_of_ne hNe with hShort | hLong
  · -- the lengths take away what the contents say
    have hSound : SoundMemcmp (memcmpWith (y.length - x.length) (-1)) :=
      memcmpWith_sound (by omega) (by omega)
    refine ⟨_, hSound, ?_⟩
    intro hOrders
    have hEq : x = y := (hOrders.eq hx hy).mp (by
      rw [hUp, Int.bmod_eq_of_le (by omega) (by omega)]
      omega)
    rw [hEq] at hNe
    exact hNe rfl
  · -- the sum is too large
    have hSound : SoundMemcmp (memcmpWith (2 ^ 31 - 1) (-1)) := memcmpWith_sound (by omega) (by omega)
    refine ⟨_, hSound, ?_⟩
    intro hOrders
    have hBelow : memberComparator (memcmpWith (2 ^ 31 - 1) (-1)) x y < 0 := by
      rw [hUp]
      rw [Int.bmod_def, Int.emod_eq_of_lt (by omega) (by omega), if_neg (by omega)]
      omega
    have hAlso := (hOrders.flip hx hy).mp hBelow
    rw [hDown, Int.bmod_eq_of_le (by omega) (by omega)] at hAlso
    omega

end Comparator

/-! ## The map -/

/-- The tree, the `Member` objects with their keys, and those that are in the middle of
`Member_logout`. -/
structure MemberMap where
  tree : BinaryTree Nat
  members : AList fun _ : Nat => Option Bytes
  leaving : List Nat

/-- The red-black tree of the library. It is given the answers of the comparator for the element that
goes in or out. -/
structure TreeLib where
  add : (Nat → Run Int) → BinaryTree Nat → Nat → Run (BinaryTree Nat)
  delete : (Nat → Run Int) → BinaryTree Nat → Nat → Run (BinaryTree Nat)

/-- An element is added even if there is an equal one, at a place that goes with the order if the
others stand in order, and the one that is deleted leaves the others in their places. -/
structure TreeLib.Sound (lib : TreeLib) : Prop where
  add : ∀ {probe t t' m}, lib.add probe t m = .ok t' → ∃ before behind,
    elements t = before ++ behind ∧ elements t' = before ++ m :: behind ∧
    ∀ p : Nat → Int, (∀ e ∈ elements t, probe e = .ok (p e)) → Split (fun e => -p e) (elements t) →
      (∀ e ∈ before, 0 ≤ p e) ∧ ∀ e ∈ behind, p e ≤ 0
  add_ok : ∀ {probe t m}, (∀ e ∈ elements t, ∃ c, probe e = .ok c) → ∃ t', lib.add probe t m = .ok t'
  delete : ∀ {probe t t' e}, e ∈ elements t → lib.delete probe t e = .ok t' → ∃ before behind,
    elements t = before ++ e :: behind ∧ elements t' = before ++ behind
  delete_ok : ∀ {probe t e}, e ∈ elements t → (∀ e ∈ elements t, ∃ c, probe e = .ok c) →
    ∃ t', lib.delete probe t e = .ok t'

/-- What happens to the map: a member logs in, with the key of its peer and the `errno` that it finds;
it begins to log out; it goes on after the others have run. -/
inductive MemberAct where
  | login (m : Nat) (key : Option Bytes) (errno : Nat)
  | logout (m : Nat)
  | leave (m : Nat)
deriving DecidableEq, Repr

namespace MemberMap

def empty : MemberMap := ⟨.nil, ∅, []⟩

variable (lib : TreeLib) (memcmp : Bytes → Bytes → Nat → Int)

/-- What the comparator says of a key and the member `e`. -/
def probe (s : MemberMap) (key : Option Bytes) (e : Nat) : Run Int :=
  match s.members.lookup e, key with
  | none, _ => .error .useAfterFree
  | some (some k), some key => .ok (memberComparator memcmp key k)
  | some _, _ => .error .nullPointer

/-- `Member_find` -/
def find (s : MemberMap) : Option Bytes → Run (Option Nat)
  | none => .error (.assertFailed "pubkey cannot be NULL")
  | some key => SearchTree.search (s.probe memcmp (some key)) s.tree

/-- `Member_login`, of the member that `Member_create` puts at `m` -/
def login (s : MemberMap) (m : Nat) (key : Option Bytes) (errno : Nat) : Run MemberMap :=
  -- the member is destroyed again if `errno` is set
  if errno ≠ 0 then pure s
  else do
    let tree ← lib.add (s.probe memcmp key) s.tree m
    pure { s with tree := tree, members := s.members.insert m key }

/-- `Member_logout` up to `taskyield` -/
def logout (s : MemberMap) (m : Nat) : Run MemberMap :=
  if s.tree = .nil then throw (.assertFailed "*map cannot be NULL")
  else pure { s with leaving := m :: s.leaving }

/-- `sglib_Member_find_member(map, m)` -/
def found (s : MemberMap) (m : Nat) : Run (Option Nat) :=
  SearchTree.search (s.probe memcmp (s.members.lookup m).join) s.tree

/-- `sglib_Member_delete_if_member(map, m, &el)` -/
def deleteIfMember (s : MemberMap) (m : Nat) : Run (BinaryTree Nat) := do
  match ← s.found memcmp m with
  | none => pure s.tree
  | some e => lib.delete (s.probe memcmp (s.members.lookup m).join) s.tree e

/-- `Member_logout` behind `taskyield`: what is freed is `m`, whichever was deleted. -/
def leave (s : MemberMap) (m : Nat) : Run MemberMap := do
  let tree ← s.deleteIfMember lib memcmp m
  pure ⟨tree, s.members.erase m, s.leaving.erase m⟩

def step (s : MemberMap) : MemberAct → Run MemberMap
  | .login m key errno => s.login lib memcmp m key errno
  | .logout m => s.logout m
  | .leave m => s.leave lib memcmp m

/-- A new member lies where no other does, and a member logs out once. -/
def Ready (s : MemberMap) : MemberAct → Prop
  | .login m _ _ => m ∉ s.members.keys
  | .logout m => m ∈ s.members.keys ∧ m ∉ s.leaving
  | .leave m => m ∈ s.leaving

/-- The maps that come about by steps of the kind that `P` allows. -/
inductive Reachable (P : MemberMap → MemberAct → Prop) : MemberMap → Prop
  | empty : Reachable P empty
  | step {s s' : MemberMap} {act : MemberAct} : Reachable P s → s.Ready act → P s act →
      s.step lib memcmp act = .ok s' → Reachable P s'

end MemberMap

/-! ## Members are found by their keys -/

section Find
variable {memcmp : Bytes → Bytes → Nat → Int} {K : Set Bytes} {s : MemberMap}

theorem MemberMap.probe_eq_ok {key : Option Bytes} {e : Nat} {c : Int} (h : s.probe memcmp key e = .ok c) :
    ∃ k k', key = some k ∧ s.members.lookup e = some (some k') ∧ c = memberComparator memcmp k k' := by
  unfold MemberMap.probe at h
  split at h
  · cases h
  · rename_i k' k hLookup
    cases h
    exact ⟨k, k', rfl, hLookup, rfl⟩
  · cases h

theorem MemberMap.probe_eq {key k : Bytes} {e : Nat} (hLookup : s.members.lookup e = some (some k)) :
    s.probe memcmp (some key) e = .ok (memberComparator memcmp key k) := by
  unfold MemberMap.probe
  rw [hLookup]

/-- All keys in the map are in `K`. -/
def MemberMap.KeysIn (s : MemberMap) (K : Set Bytes) : Prop :=
  ∀ e ∈ elements s.tree, ∀ k, s.members.lookup e = some (some k) → k ∈ K

/-- Whatever `memcmp` does, the comparator is an order, and a lookup gives a member with that key,
exactly if keys that differ before one of them ends are of one length. -/
theorem memberComparator_orders_iff (hLen : ∀ k ∈ K, k.length < 2 ^ 31) :
    (∀ memcmp, SoundMemcmp memcmp → Orders (memberComparator memcmp) K ∧
      ∀ (s : MemberMap) key m, s.KeysIn K → key ∈ K → s.find memcmp (some key) = .ok (some m) →
        s.members.lookup m = some (some key)) ↔ Matched K := by
  constructor
  · intro hAll x hx y hy hDiffer
    by_contra hNe
    rcases Int.lt_trichotomy (lex byteValue x y) 0 with hBelow | hZero | hAbove
    · have hFlip := lex_flip (f := byteValue) x y
      have hDiffer' : ¬Agree y x := by
        rw [Agree, Nat.min_comm]
        exact fun hAgree => hDiffer hAgree.symm
      obtain ⟨memcmp, hSound, hNot⟩ := not_orders_of_lengths hLen hy hx (by omega) hDiffer' (Ne.symm hNe)
      exact hNot (hAll memcmp hSound).1
    · exact hNe (congrArg List.length ((lex_eq_zero byteValue_injective x y).mp hZero))
    · obtain ⟨memcmp, hSound, hNot⟩ := not_orders_of_lengths hLen hx hy hAbove hDiffer hNe
      exact hNot (hAll memcmp hSound).1
  · intro hMatched memcmp hSound
    have hOrders := hSound.orders hMatched hLen
    refine ⟨hOrders, ?_⟩
    intro s key m hKeys hKey hFind
    obtain ⟨hMem, hProbe⟩ := search_found hFind
    obtain ⟨k, k', hEq, hLookup, hZero⟩ := MemberMap.probe_eq_ok hProbe
    cases hEq
    rw [(hOrders.eq hKey (hKeys m hMem k' hLookup)).mp hZero.symm, hLookup]

end Find

/-! ## The members that are logged in -/

namespace MemberMap
variable {lib : TreeLib} {memcmp : Bytes → Bytes → Nat → Int} {s s' : MemberMap}

/-- The tree holds the `Member` objects that there are, and nothing else. -/
def Exact (s : MemberMap) : Prop := (elements s.tree).Perm s.members.keys

/-- When a member goes, the search for its key comes to the member itself. -/
def Meets (memcmp : Bytes → Bytes → Nat → Int) (s : MemberMap) : MemberAct → Prop
  | .leave m => s.found memcmp m = .ok (some m)
  | _ => True

/-- The map is exact, and who is leaving is still there. -/
structure Sane (s : MemberMap) : Prop where
  exact : s.Exact
  leaving : ∀ m ∈ s.leaving, m ∈ s.members.keys
  nodup : s.leaving.Nodup

theorem Sane.login (h : s.Sane) (hLib : lib.Sound) {m : Nat} {key : Option Bytes} {errno : Nat}
    (hNew : m ∉ s.members.keys) (hStep : s.login lib memcmp m key errno = .ok s') : s'.Sane := by
  rw [MemberMap.login] at hStep
  split at hStep
  · cases hStep
    exact h
  · obtain ⟨tree, hAdd, hPure⟩ := bind_eq_ok_iff.mp hStep
    cases hPure
    obtain ⟨before, behind, hOld, hNow, -⟩ := hLib.add hAdd
    have hKeys : (s.members.insert m key).keys = m :: s.members.keys := by
      rw [AList.keys_insert, List.erase_of_not_mem hNew]
    refine ⟨?_, ?_, h.nodup⟩
    · rw [Exact, hNow, hKeys]
      have hExact : (before ++ behind).Perm s.members.keys := hOld ▸ id h.exact
      exact List.perm_middle.trans (hExact.cons m)
    · intro k hk
      rw [hKeys]
      exact List.mem_cons_of_mem m (h.leaving k hk)

/-- A member goes: what the tree has lost is the member that was found. -/
theorem leave_cases (hLib : lib.Sound) {m : Nat} (hStep : s.leave lib memcmp m = .ok s') :
    ∃ k, s.found memcmp m = .ok k ∧ s'.members = s.members.erase m ∧ s'.leaving = s.leaving.erase m ∧
      (elements s'.tree).Perm (k.elim (elements s.tree) (elements s.tree).erase) ∧
      (elements s'.tree).Sublist (elements s.tree) := by
  obtain ⟨tree, hDelete, hPure⟩ := bind_eq_ok_iff.mp hStep
  cases hPure
  obtain ⟨k, hFound, hRest⟩ := bind_eq_ok_iff.mp hDelete
  refine ⟨k, hFound, rfl, rfl, ?_⟩
  cases k with
  | none =>
    cases hRest
    exact ⟨List.Perm.refl _, List.Sublist.refl _⟩
  | some e =>
    have hMem := (search_found hFound).1
    obtain ⟨before, behind, hOld, hNow⟩ := hLib.delete hMem hRest
    rw [Option.elim_some, hNow, hOld]
    constructor
    · apply List.Perm.symm
      apply (List.Perm.erase e List.perm_middle).trans
      rw [List.erase_cons_head]
    · exact (List.Sublist.refl before).append (List.sublist_cons_self e behind)

theorem Exact.leave_iff (h : s.Exact) (hLib : lib.Sound) {m : Nat} (hm : m ∈ s.members.keys)
    (hStep : s.leave lib memcmp m = .ok s') : s'.Exact ↔ s.found memcmp m = .ok (some m) := by
  obtain ⟨k, hFound, hMembers, -, hPerm, -⟩ := leave_cases hLib hStep
  have hKeys : s'.members.keys = s.members.keys.erase m := by rw [hMembers, AList.keys_erase]
  have hGone : m ∉ s'.members.keys := by
    rw [hKeys]
    exact (AList.keys_nodup s.members).not_mem_erase
  rw [hFound]
  constructor
  · intro hExact
    -- a member that is still in the tree has not been freed
    have hAbsent : m ∉ k.elim (elements s.tree) (elements s.tree).erase :=
      fun hMem => hGone (hExact.mem_iff.mp (hPerm.mem_iff.mpr hMem))
    cases k with
    | none => exact absurd (h.mem_iff.mpr hm) hAbsent
    | some e =>
      by_cases hSame : m = e
      · rw [hSame]
      · exact absurd ((List.mem_erase_of_ne hSame).mpr (h.mem_iff.mpr hm)) hAbsent
  · intro hEq
    cases hEq
    rw [Exact, hKeys]
    exact hPerm.trans (h.erase m)

theorem Sane.step (h : s.Sane) (hLib : lib.Sound) {act : MemberAct} (hReady : s.Ready act)
    (hMeets : s.Meets memcmp act) (hStep : s.step lib memcmp act = .ok s') : s'.Sane := by
  cases act with
  | login m key errno => exact h.login hLib hReady hStep
  | logout m =>
    rw [MemberMap.step, MemberMap.logout] at hStep
    split at hStep
    · cases hStep
    · cases hStep
      exact ⟨h.exact, List.forall_mem_cons.mpr ⟨hReady.1, h.leaving⟩, List.nodup_cons.mpr ⟨hReady.2, h.nodup⟩⟩
  | leave m =>
    obtain ⟨-, -, hMembers, hLeaving, -⟩ := leave_cases hLib hStep
    refine ⟨(h.exact.leave_iff hLib (h.leaving m hReady) hStep).mpr hMeets, ?_, ?_⟩
    · intro k hk
      rw [hLeaving, h.nodup.mem_erase_iff] at hk
      rw [hMembers, AList.keys_erase, List.mem_erase_of_ne hk.1]
      exact h.leaving k hk.2
    · rw [hLeaving]
      exact h.nodup.erase m

theorem Reachable.sane (hLib : lib.Sound) (h : Reachable lib memcmp (Meets memcmp) s) : s.Sane := by
  induction h with
  | empty => exact ⟨List.Perm.nil, by simp [MemberMap.empty], List.nodup_nil⟩
  | step _ hReady hMeets hStep ih => exact ih.step hLib hReady hMeets hStep

/-! ## Members with keys of their own -/

/-- Every member has a key. -/
def Keyed (s : MemberMap) : Prop := ∀ e ∈ s.members.keys, ∃ k, s.members.lookup e = some (some k)

/-- A login brings a key. -/
def BringsKey : MemberAct → Prop
  | .login _ key _ => key ≠ none
  | _ => True

theorem Sane.probe_ok (memcmp : Bytes → Bytes → Nat → Int) (h : s.Sane) (hKeyed : s.Keyed) (key : Bytes) :
    ∀ e ∈ elements s.tree, ∃ c, s.probe memcmp (some key) e = .ok c := by
  intro e he
  obtain ⟨k, hLookup⟩ := hKeyed e (h.exact.mem_iff.mp he)
  exact ⟨_, probe_eq hLookup⟩

/-- No step fails while every member has a key. -/
theorem Sane.step_ok (h : s.Sane) (hLib : lib.Sound) (hKeyed : s.Keyed) {act : MemberAct}
    (hReady : s.Ready act) (hBrings : BringsKey act) : ∃ s', s.step lib memcmp act = .ok s' := by
  cases act with
  | login m key errno =>
    obtain ⟨key, rfl⟩ := Option.ne_none_iff_exists'.mp hBrings
    rw [MemberMap.step, MemberMap.login]
    split
    · exact ⟨s, rfl⟩
    · obtain ⟨tree, hAdd⟩ := hLib.add_ok (m := m) (h.probe_ok memcmp hKeyed key)
      rw [bind_of_ok hAdd]
      exact ⟨_, rfl⟩
  | logout m =>
    have hTree : s.tree ≠ .nil := by
      intro hNil
      have hMem := h.exact.mem_iff.mpr hReady.1
      rw [hNil] at hMem
      cases hMem
    rw [MemberMap.step, MemberMap.logout, if_neg hTree]
    exact ⟨_, rfl⟩
  | leave m =>
    obtain ⟨key, hLookup⟩ := hKeyed m (h.leaving m hReady)
    have hJoin : (s.members.lookup m).join = some key := by
      rw [hLookup]
      rfl
    have hProbe := h.probe_ok memcmp hKeyed key
    obtain ⟨k, hFound⟩ := search_ok hProbe
    have hDelete : ∃ tree, s.deleteIfMember lib memcmp m = .ok tree := by
      rw [deleteIfMember, found, hJoin, bind_of_ok hFound]
      cases k with
      | none => exact ⟨_, rfl⟩
      | some e => exact hLib.delete_ok (search_found hFound).1 hProbe
    obtain ⟨tree, hDelete⟩ := hDelete
    rw [MemberMap.step, MemberMap.leave, bind_of_ok hDelete]
    exact ⟨_, rfl⟩

/-- The key of a member -/
def keyAt (s : MemberMap) (e : Nat) : Bytes := (s.members.lookup e).join.getD []

theorem keyAt_eq {e : Nat} {k : Bytes} (h : s.members.lookup e = some (some k)) : s.keyAt e = k := by
  rw [keyAt, h]
  rfl

/-- How two members stand by their keys. -/
def compare (memcmp : Bytes → Bytes → Nat → Int) (s : MemberMap) (x y : Nat) : Int :=
  memberComparator memcmp (s.keyAt x) (s.keyAt y)

variable {K : Set Bytes}

/-- Every login brings a key in `K` that no member has. -/
def OwnKey (K : Set Bytes) (s : MemberMap) : MemberAct → Prop
  | .login _ key _ => ∃ k ∈ K, key = some k ∧ ∀ e, s.members.lookup e ≠ some (some k)
  | _ => True

/-- The members have keys of their own and stand in the tree in their order. -/
structure Ranked (memcmp : Bytes → Bytes → Nat → Int) (K : Set Bytes) (s : MemberMap) : Prop extends Sane s where
  keyed : ∀ e ∈ s.members.keys, ∃ k ∈ K, s.members.lookup e = some (some k)
  distinct : ∀ {e e' k}, s.members.lookup e = some (some k) → s.members.lookup e' = some (some k) → e = e'
  sorted : Sorted (s.compare memcmp) (elements s.tree)

theorem Ranked.keyAt_mem (h : Ranked memcmp K s) {e : Nat} (he : e ∈ elements s.tree) : s.keyAt e ∈ K := by
  obtain ⟨k, hk, hLookup⟩ := h.keyed e (h.exact.mem_iff.mp he)
  rw [keyAt_eq hLookup]
  exact hk

theorem Ranked.probe_eq (h : Ranked memcmp K s) (key : Bytes) {e : Nat} (he : e ∈ elements s.tree) :
    s.probe memcmp (some key) e = .ok (memberComparator memcmp key (s.keyAt e)) := by
  obtain ⟨k, -, hLookup⟩ := h.keyed e (h.exact.mem_iff.mp he)
  rw [keyAt_eq hLookup]
  exact MemberMap.probe_eq hLookup

/-- What the tree asks of the comparator goes with the order of the keys. -/
theorem Ranked.split (h : Ranked memcmp K s) (hOrders : Orders (memberComparator memcmp) K) {key : Bytes}
    (hKey : key ∈ K) : Split (fun e => -memberComparator memcmp key (s.keyAt e)) (elements s.tree) := by
  have hSorted : Sorted (memberComparator memcmp) ((elements s.tree).map s.keyAt) :=
    List.pairwise_map.mpr h.sorted
  have hIn : ∀ k ∈ (elements s.tree).map s.keyAt, k ∈ K := by
    intro k hk
    obtain ⟨e, he, rfl⟩ := List.mem_map.mp hk
    exact h.keyAt_mem he
  exact List.pairwise_map.mp (hSorted.split_flip hOrders.toPreorders hIn hKey)

/-- The search for a member's key comes to that member. -/
theorem Ranked.found_self (h : Ranked memcmp K s) (hOrders : Orders (memberComparator memcmp) K) {m : Nat}
    (hm : m ∈ s.members.keys) : s.found memcmp m = .ok (some m) := by
  obtain ⟨key, hKey, hLookup⟩ := h.keyed m hm
  have hJoin : (s.members.lookup m).join = some key := by
    rw [hLookup]
    rfl
  have hZero : memberComparator memcmp key (s.keyAt m) = 0 := by
    rw [keyAt_eq hLookup]
    exact (hOrders.eq hKey hKey).mpr rfl
  obtain ⟨e, hFound⟩ := search_finds (fun b hb => h.probe_eq key hb) (h.split hOrders hKey)
    (h.exact.mem_iff.mpr hm) hZero
  obtain ⟨k, k', hEq, hLookup', hSame⟩ := probe_eq_ok (search_found hFound).2
  cases hEq
  obtain ⟨k'', hIn, hAt⟩ := h.keyed e (h.exact.mem_iff.mp (search_found hFound).1)
  rw [hLookup'] at hAt
  cases hAt
  rw [(hOrders.eq hKey hIn).mp hSame.symm] at hLookup
  rw [found, hJoin, hFound, h.distinct hLookup' hLookup]

theorem Ranked.login (h : Ranked memcmp K s) (hLib : lib.Sound) (hOrders : Orders (memberComparator memcmp) K)
    {m : Nat} {key : Bytes} {errno : Nat} (hNew : m ∉ s.members.keys) (hKey : key ∈ K)
    (hOwn : ∀ e, s.members.lookup e ≠ some (some key))
    (hStep : s.login lib memcmp m (some key) errno = .ok s') : Ranked memcmp K s' := by
  have hSane := h.toSane.login hLib hNew hStep
  rw [MemberMap.login] at hStep
  split at hStep
  · cases hStep
    exact h
  obtain ⟨tree, hAdd, hPure⟩ := bind_eq_ok_iff.mp hStep
  cases hPure
  obtain ⟨before, behind, hOld, hNow, hPlace⟩ := hLib.add hAdd
  have hSelf : (s.members.insert m (some key)).lookup m = some (some key) := AList.lookup_insert _
  have hOther : ∀ e, e ≠ m → (s.members.insert m (some key)).lookup e = s.members.lookup e :=
    fun e hNe => AList.lookup_insert_ne hNe
  have hFresh : ∀ e ∈ elements s.tree, e ≠ m := by
    rintro e he rfl
    exact hNew (h.exact.mem_iff.mp he)
  refine ⟨hSane, ?_, ?_, ?_⟩
  · intro e he
    rw [AList.keys_insert] at he
    rcases List.mem_cons.mp he with rfl | he
    · exact ⟨key, hKey, hSelf⟩
    · have hMem := List.mem_of_mem_erase he
      have hNe : e ≠ m := fun hSame => hNew (hSame ▸ hMem)
      rw [hOther e hNe]
      exact h.keyed e hMem
  · intro e e' k he he'
    by_cases hSame : e = m <;> by_cases hSame' : e' = m
    · rw [hSame, hSame']
    · subst hSame
      rw [hSelf] at he
      cases he
      rw [hOther e' hSame'] at he'
      exact absurd he' (hOwn e')
    · subst hSame'
      rw [hSelf] at he'
      cases he'
      rw [hOther e hSame] at he
      exact absurd he (hOwn e)
    · rw [hOther e hSame] at he
      rw [hOther e' hSame'] at he'
      exact h.distinct he he'
  · obtain ⟨hBefore, hBehind⟩ := hPlace _ (fun e he => h.probe_eq key he) (h.split hOrders hKey)
    have hKeep : ∀ e ∈ elements s.tree,
        keyAt { s with tree := tree, members := s.members.insert m (some key) } e = s.keyAt e := by
      intro e he
      rw [keyAt, keyAt, hOther e (hFresh e he)]
    have hKeyM : keyAt { s with tree := tree, members := s.members.insert m (some key) } m = key := keyAt_eq hSelf
    rw [hNow]
    have hSorted := h.sorted
    rw [hOld] at hSorted hKeep
    apply Sorted.insert
    · apply List.Pairwise.imp_of_mem _ hSorted
      intro x y hx hy hLe
      rwa [MemberMap.compare, hKeep x hx, hKeep y hy]
    · intro x hx
      have hMem : x ∈ before ++ behind := List.mem_append_left behind hx
      rw [MemberMap.compare, hKeep x hMem, hKeyM]
      have hFlip := hOrders.flip hKey (h.keyAt_mem (hOld ▸ hMem))
      have hAbove := hBefore x hx
      omega
    · intro x hx
      rw [MemberMap.compare, hKeep x (List.mem_append_right before hx), hKeyM]
      exact hBehind x hx

theorem Ranked.step (h : Ranked memcmp K s) (hLib : lib.Sound) (hOrders : Orders (memberComparator memcmp) K)
    {act : MemberAct} (hReady : s.Ready act) (hOwn : s.OwnKey K act)
    (hStep : s.step lib memcmp act = .ok s') : Ranked memcmp K s' := by
  cases act with
  | login m key errno =>
    obtain ⟨k, hk, rfl, hNone⟩ := hOwn
    exact h.login hLib hOrders hReady hk hNone hStep
  | logout m =>
    have hSane := h.toSane.step hLib hReady (show s.Meets memcmp (.logout m) from trivial) hStep
    rw [MemberMap.step, MemberMap.logout] at hStep
    split at hStep
    · cases hStep
    · cases hStep
      exact ⟨hSane, h.keyed, h.distinct, h.sorted⟩
  | leave m =>
    have hSane := h.toSane.step hLib hReady (h.found_self hOrders (h.leaving m hReady)) hStep
    obtain ⟨-, -, hMembers, -, -, hSublist⟩ := leave_cases hLib hStep
    have hKeys : ∀ e ∈ s'.members.keys, e ≠ m ∧ e ∈ s.members.keys := by
      intro e he
      rw [hMembers, AList.keys_erase, (AList.keys_nodup s.members).mem_erase_iff] at he
      exact he
    have hLookup : ∀ e, e ≠ m → s'.members.lookup e = s.members.lookup e := by
      intro e hNe
      rw [hMembers, AList.lookup_erase_ne hNe]
    have hNe : ∀ {e k}, s'.members.lookup e = some (some k) → e ≠ m := by
      rintro e k he rfl
      rw [hMembers, AList.lookup_erase] at he
      cases he
    refine ⟨hSane, ?_, ?_, ?_⟩
    · intro e he
      obtain ⟨hDiffer, hMem⟩ := hKeys e he
      rw [hLookup e hDiffer]
      exact h.keyed e hMem
    · intro e e' k he he'
      rw [hLookup e (hNe he)] at he
      rw [hLookup e' (hNe he')] at he'
      exact h.distinct he he'
    · have hKeep : ∀ e ∈ elements s'.tree, s'.keyAt e = s.keyAt e := by
        intro e he
        rw [keyAt, keyAt, hLookup e (hKeys e (hSane.exact.mem_iff.mp he)).1]
      apply List.Pairwise.imp_of_mem _ (List.Pairwise.sublist hSublist h.sorted)
      intro x y hx hy hLe
      rwa [MemberMap.compare, hKeep x hx, hKeep y hy]

/-- If every login brings a key of its own, every member that goes is the one that is found. -/
theorem Reachable.meets (hLib : lib.Sound) (hOrders : Orders (memberComparator memcmp) K)
    (hReach : Reachable lib memcmp (OwnKey K) s) :
    Ranked memcmp K s ∧ Reachable lib memcmp (Meets memcmp) s := by
  induction hReach with
  | empty => exact ⟨⟨⟨List.Perm.nil, by simp [MemberMap.empty], List.nodup_nil⟩, by simp [MemberMap.empty],
      by simp [MemberMap.empty], List.Pairwise.nil⟩, .empty⟩
  | @step s s' act _ hReady hOwn hStep ih =>
    refine ⟨ih.1.step hLib hOrders hReady hOwn hStep, .step ih.2 hReady ?_ hStep⟩
    cases act with
    | leave m => exact ih.1.found_self hOrders (ih.1.leaving m hReady)
    | login m key errno => exact trivial
    | logout m => exact trivial

/-- If every login brings a key of its own, `Member_find` comes to the members that are logged in by their
keys and to nobody else, and no step fails. -/
theorem own_keys_mapped (hLib : lib.Sound) (hOrders : Orders (memberComparator memcmp) K)
    (hReach : Reachable lib memcmp (OwnKey K) s) :
    s.Exact ∧ (∀ k ∈ K, ∀ m, s.find memcmp (some k) = .ok (some m) ↔ s.members.lookup m = some (some k)) ∧
      ∀ act, s.Ready act → OwnKey K s act → ∃ s', s.step lib memcmp act = .ok s' := by
  obtain ⟨hRanked, -⟩ := hReach.meets hLib hOrders
  refine ⟨hRanked.exact, fun k hk m => ⟨fun hFind => ?_, fun hLookup => ?_⟩, fun act hReady hOwn => ?_⟩
  · obtain ⟨hMem, hProbe⟩ := search_found hFind
    obtain ⟨_, k', hEq, hLookup, hZero⟩ := probe_eq_ok hProbe
    cases hEq
    obtain ⟨_, hIn, hAt⟩ := hRanked.keyed m (hRanked.exact.mem_iff.mp hMem)
    rw [hLookup] at hAt
    cases hAt
    rw [(hOrders.eq hk hIn).mp hZero.symm, hLookup]
  · have hm : m ∈ s.members.keys := AList.mem_keys.mpr (AList.lookup_isSome.mp (by rw [hLookup]; rfl))
    have hFound := hRanked.found_self hOrders hm
    rwa [found, hLookup] at hFound
  · have hKeyed : s.Keyed := by
      intro e he
      obtain ⟨k, -, hLookup⟩ := hRanked.keyed e he
      exact ⟨k, hLookup⟩
    refine hRanked.toSane.step_ok hLib hKeyed hReady ?_
    cases act with
    | login m key errno =>
      obtain ⟨k, -, rfl, -⟩ := hOwn
      exact Option.some_ne_none k
    | logout m => exact trivial
    | leave m => exact trivial

/-- If every member that goes is the one that is found, the map holds exactly the members that are
logged in, and once one is not, it does not any more. No step fails while every member has a key. -/
theorem map_exact (hLib : lib.Sound) (hReach : Reachable lib memcmp (Meets memcmp) s) :
    s.Exact ∧
      (∀ m s', s.Ready (.leave m) → s.step lib memcmp (.leave m) = .ok s' →
        (s'.Exact ↔ s.found memcmp m = .ok (some m))) ∧
      (s.Keyed → ∀ act, s.Ready act → BringsKey act → ∃ s', s.step lib memcmp act = .ok s') := by
  have hSane := hReach.sane hLib
  refine ⟨hSane.exact, ?_, ?_⟩
  · intro m s' hReady hStep
    exact hSane.exact.leave_iff hLib (hSane.leaving m hReady) hStep
  · intro hKeyed act hReady hBrings
    exact hSane.step_ok hLib hKeyed hReady hBrings

/-! ## Two members -/

/-- Without balancing: an equal element goes to the right. -/
def plainAdd (probe : Nat → Run Int) : BinaryTree Nat → Nat → Run (BinaryTree Nat)
  | .nil, m => .ok (.node m .nil .nil)
  | .node e left right, m => do
    let c ← probe e
    if c < 0 then do
      let left ← plainAdd probe left m
      pure (.node e left right)
    else do
      let right ← plainAdd probe right m
      pure (.node e left right)

def spine : List Nat → BinaryTree Nat
  | [] => .nil
  | e :: es => .node e .nil (spine es)

theorem elements_spine (es : List Nat) : elements (spine es) = es := by
  induction es with
  | nil => rfl
  | cons e es ih => exact congrArg (e :: ·) ih

/-- A library of this kind. -/
def plainTree : TreeLib := ⟨plainAdd, fun _ t e => .ok (spine ((elements t).erase e))⟩

theorem plainAdd_spec {probe : Nat → Run Int} {t t' : BinaryTree Nat} {m : Nat} (h : plainAdd probe t m = .ok t') :
    ∃ before behind, elements t = before ++ behind ∧ elements t' = before ++ m :: behind ∧
      ∀ p : Nat → Int, (∀ e ∈ elements t, probe e = .ok (p e)) → Split (fun e => -p e) (elements t) →
        (∀ e ∈ before, 0 ≤ p e) ∧ ∀ e ∈ behind, p e ≤ 0 := by
  induction t generalizing t' with
  | nil =>
    cases h
    exact ⟨[], [], rfl, rfl, fun p _ _ => ⟨by simp, by simp⟩⟩
  | node e left right ihLeft ihRight =>
    obtain ⟨c, hc, h⟩ := bind_eq_ok_iff.mp h
    have hRoot : ∀ p : Nat → Int, (∀ d ∈ elements (.node e left right), probe d = .ok (p d)) → p e = c := by
      intro p hProbe
      have hAt := hProbe e (List.mem_append_right _ List.mem_cons_self)
      rw [hc] at hAt
      exact (Except.ok.inj hAt).symm
    split at h
    · obtain ⟨left', hLeft, hPure⟩ := bind_eq_ok_iff.mp h
      cases hPure
      obtain ⟨before, behind, hOld, hNow, hPlace⟩ := ihLeft hLeft
      refine ⟨before, behind ++ e :: elements right, ?_, ?_, ?_⟩
      · rw [elements, hOld, List.append_assoc]
      · rw [elements, hNow, List.append_assoc]
        rfl
      · intro p hProbe hSplit
        have hAt := hRoot p hProbe
        obtain ⟨hSplitLeft, hRest, -⟩ := List.pairwise_append.mp hSplit
        obtain ⟨hFirst, -⟩ := List.pairwise_cons.mp hRest
        obtain ⟨hBefore, hBehind⟩ := hPlace p (fun d hd => hProbe d (List.mem_append_left _ hd)) hSplitLeft
        refine ⟨hBefore, ?_⟩
        intro d hd
        rcases List.mem_append.mp hd with hd | hd
        · exact hBehind d hd
        · rcases List.mem_cons.mp hd with rfl | hd
          · omega
          · have hOrder := (hFirst d hd).2
            beta_reduce at hOrder
            omega
    · obtain ⟨right', hRight, hPure⟩ := bind_eq_ok_iff.mp h
      cases hPure
      obtain ⟨before, behind, hOld, hNow, hPlace⟩ := ihRight hRight
      refine ⟨elements left ++ e :: before, behind, ?_, ?_, ?_⟩
      · rw [elements, hOld, List.append_assoc]
        rfl
      · rw [elements, hNow, List.append_assoc]
        rfl
      · intro p hProbe hSplit
        have hAt := hRoot p hProbe
        obtain ⟨-, hRest, hCross⟩ := List.pairwise_append.mp hSplit
        obtain ⟨-, hSplitRight⟩ := List.pairwise_cons.mp hRest
        obtain ⟨hBefore, hBehind⟩ :=
          hPlace p (fun d hd => hProbe d (List.mem_append_right _ (List.mem_cons_of_mem e hd))) hSplitRight
        refine ⟨?_, hBehind⟩
        intro d hd
        rcases List.mem_append.mp hd with hd | hd
        · have hOrder := (hCross d hd e List.mem_cons_self).2
          beta_reduce at hOrder
          omega
        · rcases List.mem_cons.mp hd with rfl | hd
          · omega
          · exact hBefore d hd

theorem plainTree_sound : plainTree.Sound where
  add := plainAdd_spec
  add_ok := by
    intro probe t m hProbe
    induction t with
    | nil => exact ⟨_, rfl⟩
    | node e left right ihLeft ihRight =>
      obtain ⟨c, hc⟩ := hProbe e (List.mem_append_right _ List.mem_cons_self)
      obtain ⟨left', hLeft⟩ := ihLeft fun d hd => hProbe d (List.mem_append_left _ hd)
      obtain ⟨right', hRight⟩ := ihRight fun d hd =>
        hProbe d (List.mem_append_right _ (List.mem_cons_of_mem e hd))
      change ∃ t', (probe e >>= _) = .ok t'
      rw [bind_of_ok hc]
      split
      · exact ⟨_, bind_of_ok hLeft _⟩
      · exact ⟨_, bind_of_ok hRight _⟩
  delete := by
    intro probe t t' e he hDelete
    cases hDelete
    obtain ⟨before, behind, -, hOld, hErase⟩ := List.exists_erase_eq he
    exact ⟨before, behind, hOld, by rw [elements_spine, hErase]⟩
  delete_ok := fun _ _ => ⟨_, rfl⟩

/-- A member with the key 1 0. -/
def longKey : MemberMap := ⟨.node 1 .nil .nil, (∅ : AList fun _ : Nat => Option Bytes).insert 1 (some [1, 0]), []⟩

theorem plainMemcmp_sound : SoundMemcmp (memcmpWith 1 (-1)) := memcmpWith_sound (by omega) (by omega)

theorem memberComparator_orders_bytes :
    Matched {[1], [2]} ∧ Orders (memberComparator (memcmpWith 1 (-1))) {[1], [2]} := by
  have hLen : ∀ k ∈ ({[1], [2]} : Set Bytes), k.length = 1 := by
    rintro k (rfl | rfl) <;> rfl
  have hMatched : Matched {[1], [2]} := by
    intro x hx y hy _
    rw [hLen x hx, hLen y hy]
  refine ⟨hMatched, ?_⟩
  exact ((memberComparator_orders_iff fun k hk => by rw [hLen k hk]; omega).mpr hMatched _ plainMemcmp_sound).1

/-- The key 2 finds the member with the key 1 0. -/
theorem memberComparator_confuses :
    SoundMemcmp (memcmpWith 1 (-1)) ∧ memberComparator (memcmpWith 1 (-1)) [2] [1, 0] = 0 ∧
      longKey.find (memcmpWith 1 (-1)) (some [2]) = .ok (some 1) ∧
      longKey.members.lookup 1 = some (some [1, 0]) :=
  ⟨plainMemcmp_sound, by decide, by rfl, by rfl⟩

/-- One member is there. -/
def oneIn : MemberMap := ⟨.node 1 .nil .nil, (∅ : AList fun _ : Nat => Option Bytes).insert 1 (some [5]), []⟩

/-- A second one has come, with this key. -/
def twoIn (key : Bytes) : MemberMap :=
  ⟨.node 1 .nil (.node 2 .nil .nil), oneIn.members.insert 2 (some key), []⟩

/-- One of them goes, and one is taken out of the tree. -/
def afterLeave (key : Bytes) (gone kept : Nat) : MemberMap :=
  ⟨.node kept .nil .nil, (twoIn key).members.erase gone, []⟩

theorem twoIn_ready (key : Bytes) :
    empty.Ready (.login 1 (some [5]) 0) ∧ oneIn.Ready (.login 2 (some key) 0) ∧
      (twoIn key).Ready (.logout 1) ∧ (twoIn key).Ready (.logout 2) :=
  ⟨List.not_mem_nil, (by decide : 2 ∉ [1]), ⟨(by decide : 1 ∈ [2, 1]), List.not_mem_nil⟩,
    ⟨(by decide : 2 ∈ [2, 1]), List.not_mem_nil⟩⟩

theorem own_keys_mapped_two :
    ∃ s, Reachable plainTree (memcmpWith 1 (-1)) (OwnKey {[5], [6]}) s ∧
      s.find (memcmpWith 1 (-1)) (some [6]) = .ok (some 2) := by
  have hLen : ∀ k ∈ ({[5], [6]} : Set Bytes), k.length = 1 := by
    rintro k (rfl | rfl) <;> rfl
  have hOrders : Orders (memberComparator (memcmpWith 1 (-1))) {[5], [6]} :=
    plainMemcmp_sound.orders (fun x hx y hy _ => by rw [hLen x hx, hLen y hy]) fun k hk => by rw [hLen k hk]; omega
  obtain ⟨hFirst, hSecond, -⟩ := twoIn_ready [6]
  have hOne : Reachable plainTree (memcmpWith 1 (-1)) (OwnKey {[5], [6]}) oneIn :=
    .step .empty hFirst ⟨[5], .inl rfl, rfl, by simp [empty]⟩ rfl
  have hTwo : Reachable plainTree (memcmpWith 1 (-1)) (OwnKey {[5], [6]}) (twoIn [6]) := by
    refine .step hOne hSecond ⟨[6], .inr rfl, rfl, fun e => ?_⟩ (by rfl)
    intro hLookup
    by_cases he : e = 1
    · rw [he, oneIn, AList.lookup_insert] at hLookup
      cases hLookup
    · rw [oneIn, AList.lookup_insert_ne he] at hLookup
      cases hLookup
  exact ⟨_, hTwo, ((own_keys_mapped plainTree_sound hOrders hTwo).2.1 [6] (.inr rfl) 2).mpr rfl⟩

/-- Two members with keys of their own log in, and the first one out. -/
theorem map_exact_two :
    ∃ s, Reachable plainTree (memcmpWith 1 (-1)) (Meets (memcmpWith 1 (-1))) s ∧
      elements s.tree = [2] ∧ s.members.keys = [2] ∧ s.Exact := by
  obtain ⟨hFirst, hSecond, hOut, -⟩ := twoIn_ready [6]
  have hOne : Reachable plainTree (memcmpWith 1 (-1)) (Meets (memcmpWith 1 (-1))) oneIn :=
    .step .empty hFirst trivial rfl
  have hTwo : Reachable plainTree (memcmpWith 1 (-1)) (Meets (memcmpWith 1 (-1))) (twoIn [6]) :=
    .step hOne hSecond trivial (by rfl)
  have hLeaving : Reachable plainTree (memcmpWith 1 (-1)) (Meets (memcmpWith 1 (-1)))
      { twoIn [6] with leaving := [1] } := .step hTwo hOut trivial (by rfl)
  have hMeets : Meets (memcmpWith 1 (-1)) { twoIn [6] with leaving := [1] } (.leave 1) := by rfl
  have hReach : Reachable plainTree (memcmpWith 1 (-1)) (Meets (memcmpWith 1 (-1))) (afterLeave [6] 1 2) :=
    .step hLeaving (List.mem_singleton_self 1) hMeets (by rfl)
  exact ⟨_, hReach, rfl, by decide, (map_exact plainTree_sound hReach).1⟩

/-- Of two members with the same key the second one logs out: it is freed, and stays in the map, and
the first one is lost. -/
theorem map_inexact_same_key :
    ∃ s, Reachable plainTree (memcmpWith 1 (-1)) (fun _ _ => True) s ∧
      elements s.tree = [2] ∧ s.members.keys = [1] ∧ ¬s.Exact := by
  obtain ⟨hFirst, hSecond, -, hOut⟩ := twoIn_ready [5]
  have hOne : Reachable plainTree (memcmpWith 1 (-1)) (fun _ _ => True) oneIn := .step .empty hFirst trivial rfl
  have hTwo : Reachable plainTree (memcmpWith 1 (-1)) (fun _ _ => True) (twoIn [5]) :=
    .step hOne hSecond trivial (by rfl)
  have hLeaving : Reachable plainTree (memcmpWith 1 (-1)) (fun _ _ => True)
      { twoIn [5] with leaving := [2] } := .step hTwo hOut trivial (by rfl)
  have hGo : Ready { twoIn [5] with leaving := [2] } (.leave 2) := List.mem_singleton_self 2
  have hReach : Reachable plainTree (memcmpWith 1 (-1)) (fun _ _ => True) (afterLeave [5] 2 2) :=
    .step hLeaving hGo trivial (by rfl)
  refine ⟨_, hReach, rfl, by decide, ?_⟩
  intro hExact
  exact absurd (hExact.mem_iff.mp List.mem_cons_self) (by decide)

end MemberMap

end Utu.Hub
