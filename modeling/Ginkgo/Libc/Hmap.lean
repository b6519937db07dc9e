import Ginkgo.Include.BitScan
import Ginkgo.Lib.Lts
import Ginkgo.Libc.CString
import Mathlib.Data.List.Perm.Basic
import Mathlib.Data.List.Nodup
import Mathlib.Logic.Function.Basic

/-!
# Hash maps

The model of `hmap.c`.  An entry is linked into the list of the map, in the order of the
insertions, and into the bucket of its key.  The table grows in `hmap_add` and shrinks in
`hmap_remove`, if a new one can be allocated.

Entries have addresses, in the order in which they are allocated; their allocation succeeds.

## Main results

* `hmapRuns_map` — a hash map is a map of all keys.
-/

namespace Ginkgo.Libc

open Function (update update_self update_of_ne)

/-! ## The functions of the source -/

/-- A string without `NUL`. -/
abbrev HmapKey := {s : List UInt8 // 0 ∉ s}

/-- `shash`, for characters without sign. -/
def shash (s : HmapKey) : ℕ :=
  s.val.foldl (fun v c => (v <<< 5 + v + c.toNat) % 2 ^ 32) 5381

/-- `struct hmap_entry_t`. -/
structure HmapEntry where
  /-- The key. -/
  key : HmapKey
  /-- The value, an address. -/
  value : ℕ

/-- `struct hmap_t`, with its entries. -/
structure Hmap where
  /-- The buckets, from their heads. -/
  hash : ℕ → List ℕ
  /-- The list of the entries. -/
  list : List ℕ
  /-- The number of buckets, an `unsigned int`. -/
  size : ℕ
  /-- The number of entries, an `unsigned int`. -/
  n : ℕ
  /-- The entries at their addresses. -/
  entry : ℕ → HmapEntry
  /-- The address of the next entry. -/
  next : ℕ

/-- `fls_long`. -/
def flsLong (l : ℕ) : ℕ :=
  if l >>> 32 ≠ 0 then fls (BitVec.ofNat 32 (l >>> 32)) + 32 else fls (BitVec.ofNat 32 l)

/-- `roundup_pow_of_two`. -/
def roundupPowOfTwo (n : ℕ) : ℕ := 1 <<< flsLong (n - 1)

/-- The size of the table that `hmap_alloc` and `hmap_resize` allocate. -/
def hmapTableSize (size : ℕ) : ℕ :=
  let size := if size < 16 then 16 else size
  if size &&& (size - 1) ≠ 0 then roundupPowOfTwo size % 2 ^ 32 else size

/-- `hmap_alloc`.  The table is allocated if memory is left, and if it is not empty: `malloc(0)`
is `NULL`. -/
def hmapAlloc (size : ℕ) (mapOk hashOk : Bool) : Option Hmap :=
  let size := hmapTableSize size
  if mapOk ∧ hashOk ∧ size ≠ 0 then
    some { hash := fun _ => [], list := [], size, n := 0, entry := fun _ => ⟨⟨[], List.not_mem_nil⟩, 0⟩,
           next := 0 }
  else none

/-- The bucket of a key. -/
def Hmap.bucket (m : Hmap) (key : HmapKey) : ℕ := shash key &&& (m.size - 1)

/-- `hlist_add_head`, into the bucket of its key. -/
def Hmap.addHead (m : Hmap) (pos : ℕ) : Hmap :=
  let b := m.bucket (m.entry pos).key
  { m with hash := update m.hash b (pos :: m.hash b) }

/-- `hmap_resize`, which leaves the map if no table can be allocated. -/
def hmapResize (m : Hmap) (size : ℕ) (ok : Bool) : Hmap :=
  let size := hmapTableSize size
  if ok ∧ size ≠ 0 then m.list.foldl Hmap.addHead { m with hash := fun _ => [], size } else m

/-- The loops over a bucket, which find the entry of a key. -/
def hmapFind (m : Hmap) (key : HmapKey) : Option ℕ :=
  (m.hash (m.bucket key)).find? fun pos => strcmp (m.entry pos).key.val key.val = 0

/-- The end of `hmap_add`: a new entry is linked into the bucket and the list. -/
def Hmap.insert (m : Hmap) (key : HmapKey) (value : ℕ) : Hmap :=
  let pos := m.next
  let m := { m with entry := update m.entry pos ⟨key, value⟩, next := pos + 1 }.addHead pos
  { m with list := m.list ++ [pos], n := (m.n + 1) % 2 ^ 32 }

/-- The end of `hmap_remove`: an entry is unlinked. -/
def Hmap.delete (m : Hmap) (key : HmapKey) (pos : ℕ) : Hmap :=
  let b := m.bucket key
  { m with hash := update m.hash b ((m.hash b).erase pos), list := m.list.erase pos,
           n := (m.n + (2 ^ 32 - 1)) % 2 ^ 32 }

/-- `hmap_add`. -/
def hmapAdd (m : Hmap) (key : HmapKey) (value : ℕ) (ok : Bool) : Hmap :=
  match hmapFind m key with
  | some pos => { m with entry := update m.entry pos { m.entry pos with value } }
  | none =>
    let m := if m.size >>> 1 < m.n then hmapResize m (m.size <<< 1 % 2 ^ 32) ok else m
    m.insert key value

/-- `hmap_remove`. -/
def hmapRemove (m : Hmap) (key : HmapKey) (ok : Bool) : Hmap :=
  let m := if 16 < m.size ∧ m.n < m.size >>> 1 then hmapResize m (m.size >>> 1) ok else m
  match hmapFind m key with
  | some pos => m.delete key pos
  | none => m

/-- `hmap_search`. -/
def hmapSearch (m : Hmap) (key : HmapKey) : ℕ :=
  match hmapFind m key with
  | some pos => (m.entry pos).value
  | none => 0

/-! ## The size of the table -/

theorem flsLong_eq {l : ℕ} (hpos : l ≠ 0) (hlt : l < 2 ^ 32) : flsLong l = Nat.log 2 l + 1 := by
  have hne : BitVec.ofNat 32 l ≠ 0 := by
    rw [Ne, ← BitVec.toNat_inj, BitVec.toNat_ofNat, Nat.mod_eq_of_lt hlt]
    exact hpos
  rw [flsLong, Nat.shiftRight_eq_div_pow, Nat.div_eq_of_lt hlt, if_neg (not_not.mpr rfl),
    fls_eq hne, BitVec.toNat_ofNat, Nat.mod_eq_of_lt hlt]

theorem testBit_log {n : ℕ} {k : ℕ} (hlo : 2 ^ k ≤ n) (hhi : n < 2 ^ (k + 1)) :
    n.testBit k = true := by
  rw [pow_succ] at hhi
  have hone : n / 2 ^ k = 1 := by
    rw [Nat.div_eq_iff (Nat.two_pow_pos k)]
    omega
  rw [Nat.testBit_eq_decide_div_mod_eq, hone]
  rfl

theorem eq_two_pow_of_and {n : ℕ} (hpos : n ≠ 0) (hand : n &&& (n - 1) = 0) :
    n = 2 ^ Nat.log 2 n := by
  have hlo : 2 ^ Nat.log 2 n ≤ n := Nat.pow_log_le_self 2 hpos
  have hhi : n < 2 ^ (Nat.log 2 n + 1) := Nat.lt_pow_succ_log_self (by norm_num) n
  by_contra hne
  have hbit : (n &&& (n - 1)).testBit (Nat.log 2 n) = true := by
    rw [Nat.testBit_and, testBit_log hlo hhi, testBit_log (n := n - 1) (by omega) (by omega)]
    rfl
  rw [hand, Nat.zero_testBit] at hbit
  cases hbit

theorem hmapTableSize_spec {size : ℕ} (hlt : size < 2 ^ 32) (hne : hmapTableSize size ≠ 0) :
    ∃ k, 4 ≤ k ∧ k ≤ 31 ∧ hmapTableSize size = 2 ^ k := by
  unfold hmapTableSize at hne ⊢
  dsimp only at hne ⊢
  obtain ⟨n, hn⟩ : ∃ n, n = if size < 16 then 16 else size := ⟨_, rfl⟩
  rw [← hn] at hne ⊢
  have hbounds : 16 ≤ n ∧ n < 2 ^ 32 := by
    rw [hn]
    split_ifs <;> omega
  split_ifs at hne ⊢ with hand
  · have hlog : 2 ^ 3 ≤ n - 1 := by omega
    rw [roundupPowOfTwo, flsLong_eq (by omega) (by omega), Nat.one_shiftLeft] at hne ⊢
    have hle : Nat.log 2 (n - 1) < 32 := Nat.log_lt_of_lt_pow (by omega) (by omega)
    have h32 : Nat.log 2 (n - 1) + 1 ≠ 32 := fun h => hne (by rw [h]; rfl)
    have h3 : 3 ≤ Nat.log 2 (n - 1) := Nat.le_log_of_pow_le (by norm_num) hlog
    exact ⟨_, by omega, by omega, Nat.mod_eq_of_lt (Nat.pow_lt_pow_right (by norm_num) (by omega))⟩
  · have hle : Nat.log 2 n < 32 := Nat.log_lt_of_lt_pow (by omega) (by omega)
    exact ⟨_, Nat.le_log_of_pow_le (by norm_num) (by omega), by omega,
      eq_two_pow_of_and (by omega) (not_not.mp hand)⟩

/-! ## The invariant -/

/-- **The list and the buckets hold the same entries**, in the order of the insertions, at most one
for a key, and each in the bucket of its key. -/
structure Hmap.Inv (m : Hmap) : Prop where
  size : ∃ k, 4 ≤ k ∧ k ≤ 31 ∧ m.size = 2 ^ k
  sorted : m.list.Pairwise (· < ·)
  bound : ∀ e ∈ m.list, e < m.next
  keys : ∀ e ∈ m.list, ∀ e' ∈ m.list, (m.entry e).key = (m.entry e').key → e = e'
  buckets : ∀ b, (m.hash b).Perm (m.list.filter fun e => m.bucket (m.entry e).key = b)
  count : m.n = m.list.length

variable {m : Hmap} {key : HmapKey} {value : ℕ}

theorem Hmap.Inv.mem_hash (h : m.Inv) {b e : ℕ} :
    e ∈ m.hash b ↔ e ∈ m.list ∧ m.bucket (m.entry e).key = b := by
  rw [(h.buckets b).mem_iff, List.mem_filter, decide_eq_true_eq]

theorem strcmp_key {key' : HmapKey} : strcmp key'.val key.val = 0 ↔ key' = key := by
  rw [strcmp_eq_zero key'.2 key.2, Subtype.ext_iff]

theorem Hmap.Inv.mem_of_find (h : m.Inv) {e : ℕ} (hfind : hmapFind m key = some e) :
    e ∈ m.list ∧ (m.entry e).key = key := by
  have hcmp := List.find?_some (p := fun pos => decide (strcmp (m.entry pos).key.val key.val = 0))
    hfind
  exact ⟨(h.mem_hash.mp (List.mem_of_find?_eq_some hfind)).1,
    strcmp_key.mp (of_decide_eq_true hcmp)⟩

theorem Hmap.Inv.find_eq_some (h : m.Inv) {e : ℕ} :
    hmapFind m key = some e ↔ e ∈ m.list ∧ (m.entry e).key = key := by
  refine ⟨h.mem_of_find, ?_⟩
  rintro ⟨hmem, rfl⟩
  cases hfind : hmapFind m (m.entry e).key with
  | none =>
    have hno := List.find?_eq_none.mp hfind e (h.mem_hash.mpr ⟨hmem, rfl⟩)
    exact absurd (decide_eq_true (strcmp_key.mpr rfl)) hno
  | some e' =>
    obtain ⟨hmem', hkey⟩ := h.mem_of_find hfind
    rw [h.keys e' hmem' e hmem hkey]

theorem Hmap.Inv.find_eq_none (h : m.Inv) :
    hmapFind m key = none ↔ ∀ e ∈ m.list, (m.entry e).key ≠ key := by
  rw [Option.eq_none_iff_forall_ne_some]
  exact ⟨fun hno e hmem hkey => hno e (h.find_eq_some.mpr ⟨hmem, hkey⟩),
    fun hno e hfind => hno e (h.find_eq_some.mp hfind).1 (h.find_eq_some.mp hfind).2⟩

/-! ## Resizing -/

theorem foldl_addHead (l : List ℕ) (m : Hmap) :
    l.foldl Hmap.addHead m = { m with hash := fun b =>
      (l.filter fun e => m.bucket (m.entry e).key = b).reverse ++ m.hash b } := by
  induction l generalizing m with
  | nil => rfl
  | cons a l ih =>
    rw [List.foldl_cons, ih]
    unfold Hmap.addHead Hmap.bucket
    congr 1
    funext b
    by_cases hb : shash (m.entry a).key &&& (m.size - 1) = b
    · simp [hb]
    · simp [hb, update_of_ne (Ne.symm hb)]

theorem Hmap.Inv.resize (h : m.Inv) {size : ℕ} (hlt : size < 2 ^ 32) (ok : Bool) :
    (hmapResize m size ok).Inv ∧ (hmapResize m size ok).list = m.list ∧
      (hmapResize m size ok).entry = m.entry ∧ (hmapResize m size ok).n = m.n ∧
      (hmapResize m size ok).next = m.next := by
  unfold hmapResize
  dsimp only
  split_ifs with hok
  · rw [foldl_addHead]
    refine ⟨⟨hmapTableSize_spec hlt hok.2, h.sorted, h.bound, h.keys, fun b => ?_, h.count⟩,
      rfl, rfl, rfl, rfl⟩
    dsimp only
    rw [List.append_nil]
    exact List.reverse_perm _
  · exact ⟨h, rfl, rfl, rfl, rfl⟩

theorem Hmap.Inv.resize_ite (h : m.Inv) {c : Prop} [Decidable c] {size : ℕ} (hlt : size < 2 ^ 32)
    (ok : Bool) : (if c then hmapResize m size ok else m).Inv ∧
      (if c then hmapResize m size ok else m).list = m.list ∧
      (if c then hmapResize m size ok else m).entry = m.entry ∧
      (if c then hmapResize m size ok else m).n = m.n := by
  split_ifs
  · obtain ⟨hinv, hlist, hentry, hn, -⟩ := h.resize hlt ok
    exact ⟨hinv, hlist, hentry, hn⟩
  · exact ⟨h, rfl, rfl, rfl⟩

/-! ## Adding and removing entries -/

/-- The map has an entry with this key and value. -/
def Hmap.Holds (m : Hmap) (key : HmapKey) (value : ℕ) : Prop :=
  ∃ e ∈ m.list, m.entry e = ⟨key, value⟩

theorem Hmap.Inv.search_eq (h : m.Inv) {o : Option ℕ} (ho : ∀ v, o = some v ↔ m.Holds key v) :
    hmapSearch m key = o.getD 0 := by
  unfold hmapSearch
  cases hfind : hmapFind m key with
  | some e =>
    obtain ⟨hmem, rfl⟩ := h.mem_of_find hfind
    rw [(ho (m.entry e).value).mpr ⟨e, hmem, rfl⟩]
    rfl
  | none =>
    have hnone : o = none := by
      refine Option.eq_none_iff_forall_ne_some.mpr fun v hv => ?_
      obtain ⟨e, hmem, he⟩ := (ho v).mp hv
      exact h.find_eq_none.mp hfind e hmem (by rw [he])
    rw [hnone]
    rfl

theorem Hmap.Inv.setValue (h : m.Inv) {e : ℕ} (hmem : e ∈ m.list) (hkey : (m.entry e).key = key)
    (value : ℕ) :
    let m' := { m with entry := update m.entry e { m.entry e with value } }
    m'.Inv ∧ ∀ k v, m'.Holds k v ↔ if k = key then v = value else m.Holds k v := by
  intro m'
  have hkeys : ∀ x, (m'.entry x).key = (m.entry x).key := fun x => by
    by_cases hx : x = e
    · rw [hx]
      simp [m']
    · simp [m', hx]
  refine ⟨⟨h.size, h.sorted, h.bound, ?_, fun b => ?_, h.count⟩, fun k v => ?_⟩
  · intro x hx y hy hxy
    rw [hkeys, hkeys] at hxy
    exact h.keys x hx y hy hxy
  · simp only [hkeys]
    exact h.buckets b
  · split_ifs with hk
    · constructor
      · rintro ⟨x, hx, hxe⟩
        obtain rfl : x = e := h.keys x hx e hmem (by rw [← hkeys, hxe, hkey, hk])
        simpa [m', hkey] using congrArg HmapEntry.value hxe.symm
      · rintro rfl
        exact ⟨e, hmem, by simp [m', hkey, hk]⟩
    · have hne : ∀ x, (m'.entry x).key = k → m'.entry x = m.entry x := fun x hx => by
        have : x ≠ e := fun he => hk (by rw [← hx, hkeys, he, hkey])
        exact update_of_ne this _ _
      constructor
      · rintro ⟨x, hx, hxe⟩
        exact ⟨x, hx, by rw [← hne x (by rw [hxe]), hxe]⟩
      · rintro ⟨x, hx, hxe⟩
        exact ⟨x, hx, by rw [hne x (by rw [hkeys, hxe]), hxe]⟩

theorem Hmap.Inv.insert (h : m.Inv) (hnew : ∀ e ∈ m.list, (m.entry e).key ≠ key)
    (hn : m.n < 2 ^ 30) (value : ℕ) :
    (m.insert key value).Inv ∧
      ∀ k v, (m.insert key value).Holds k v ↔ if k = key then v = value else m.Holds k v := by
  have hself : (m.insert key value).entry m.next = ⟨key, value⟩ := update_self _ _ _
  have hold : ∀ e ∈ m.list, (m.insert key value).entry e = m.entry e := fun e he =>
    update_of_ne (h.bound e he).ne _ _
  have hlist : (m.insert key value).list = m.list ++ [m.next] := rfl
  have hmem : ∀ e, e ∈ (m.insert key value).list ↔ e ∈ m.list ∨ e = m.next := fun e => by
    rw [hlist, List.mem_append, List.mem_singleton]
  refine ⟨⟨h.size, ?_, ?_, ?_, fun b => ?_, ?_⟩, fun k v => ?_⟩
  · rw [hlist, List.pairwise_append]
    exact ⟨h.sorted, List.pairwise_singleton _ _, fun e he x hx =>
      List.mem_singleton.mp hx ▸ h.bound e he⟩
  · intro e he
    show e < m.next + 1
    rcases (hmem e).mp he with he | rfl
    · exact (h.bound e he).trans (Nat.lt_succ_self _)
    · exact Nat.lt_succ_self _
  · intro e he e' he' hkey
    rcases (hmem e).mp he with he | rfl <;> rcases (hmem e').mp he' with he' | rfl
    · rw [hold e he, hold e' he'] at hkey
      exact h.keys e he e' he' hkey
    · rw [hold e he, hself] at hkey
      exact absurd hkey (hnew e he)
    · rw [hold e' he', hself] at hkey
      exact absurd hkey.symm (hnew e' he')
    · rfl
  · have hfilter : (m.list.filter fun e => m.bucket ((m.insert key value).entry e).key = b) =
        m.list.filter fun e => m.bucket (m.entry e).key = b :=
      List.filter_congr fun e he => by rw [hold e he]
    have hhash : (m.insert key value).hash =
        update m.hash (m.bucket key) (m.next :: m.hash (m.bucket key)) := by
      simp [Hmap.insert, Hmap.addHead, Hmap.bucket]
    have hsame : ∀ k, (m.insert key value).bucket k = m.bucket k := fun _ => rfl
    simp only [hsame, hlist, List.filter_append, hfilter, List.filter_singleton, hself]
    by_cases hb : m.bucket key = b
    · rw [hhash, hb, update_self]
      simpa using ((h.buckets b).cons m.next).trans (List.perm_append_singleton _ _).symm
    · rw [hhash, update_of_ne (Ne.symm hb)]
      simpa [hb] using h.buckets b
  · show (m.n + 1) % 2 ^ 32 = (m.list ++ [m.next]).length
    rw [Nat.mod_eq_of_lt (by omega), h.count, List.length_append, List.length_singleton]
  · constructor
    · rintro ⟨e, he, hentry⟩
      rcases (hmem e).mp he with he | rfl
      · rw [hold e he] at hentry
        rw [if_neg fun hk => hnew e he (by rw [hentry, hk])]
        exact ⟨e, he, hentry⟩
      · rw [hself] at hentry
        cases hentry
        rw [if_pos rfl]
    · intro hv
      split_ifs at hv with hk
      · exact ⟨m.next, (hmem _).mpr (Or.inr rfl), by rw [hself, hk, hv]⟩
      · obtain ⟨e, he, hentry⟩ := hv
        exact ⟨e, (hmem e).mpr (Or.inl he), by rw [hold e he, hentry]⟩

theorem Hmap.Inv.delete (h : m.Inv) {pos : ℕ} (hpos : pos ∈ m.list)
    (hkey : (m.entry pos).key = key) (hn : m.n < 2 ^ 32) :
    (m.delete key pos).Inv ∧
      ∀ k v, (m.delete key pos).Holds k v ↔ k ≠ key ∧ m.Holds k v := by
  have hnodup : m.list.Nodup := h.sorted.imp fun hlt => hlt.ne
  have hlist : (m.delete key pos).list = m.list.filter (· != pos) := by
    rw [← hnodup.erase_eq_filter]
    rfl
  have hmem : ∀ e, e ∈ (m.delete key pos).list ↔ e ∈ m.list ∧ e ≠ pos := fun e => by
    rw [hlist, List.mem_filter, bne_iff_ne]
  refine ⟨⟨h.size, ?_, fun e he => h.bound e ((hmem e).mp he).1, ?_, fun b => ?_, ?_⟩,
    fun k v => ?_⟩
  · rw [hlist]
    exact h.sorted.filter _
  · exact fun e he e' he' => h.keys e ((hmem e).mp he).1 e' ((hmem e').mp he').1
  · have hfilter : (m.delete key pos).list.filter (fun e => m.bucket (m.entry e).key = b) =
        (m.list.filter fun e => m.bucket (m.entry e).key = b).filter (· != pos) := by
      rw [hlist, List.filter_comm]
    show (update m.hash (m.bucket key) ((m.hash (m.bucket key)).erase pos) b).Perm
      ((m.delete key pos).list.filter fun e => m.bucket (m.entry e).key = b)
    rw [hfilter]
    by_cases hb : m.bucket key = b
    · rw [hb, update_self, ← (hnodup.filter _).erase_eq_filter]
      exact (h.buckets b).erase pos
    · rw [update_of_ne (Ne.symm hb), List.filter_eq_self.mpr]
      · exact h.buckets b
      · rintro e he
        refine bne_iff_ne.mpr fun heq => hb ?_
        rw [heq, List.mem_filter, decide_eq_true_eq, hkey] at he
        exact he.2
  · have hpred : m.list.length = (m.list.erase pos).length + 1 := by
      rw [List.length_erase_add_one hpos]
    show (m.n + (2 ^ 32 - 1)) % 2 ^ 32 = (m.list.erase pos).length
    have := h.count
    omega
  · constructor
    · rintro ⟨e, he, hentry⟩
      obtain ⟨he, hne⟩ := (hmem e).mp he
      replace hentry : m.entry e = ⟨k, v⟩ := hentry
      exact ⟨fun hk => hne (h.keys e he pos hpos (by rw [hentry, hkey, hk])), e, he, hentry⟩
    · rintro ⟨hk, e, he, hentry⟩
      exact ⟨e, (hmem e).mpr ⟨he, fun heq => hk (by rw [← hkey, ← heq, hentry])⟩, hentry⟩

theorem Hmap.Inv.size_lt (h : m.Inv) : m.size < 2 ^ 32 := by
  obtain ⟨k, -, hk, hsize⟩ := h.size
  rw [hsize]
  exact Nat.pow_lt_pow_right (by norm_num) (by omega)

theorem Hmap.Inv.add (h : m.Inv) (hn : m.n < 2 ^ 30) (key : HmapKey) (value : ℕ) (ok : Bool) :
    (hmapAdd m key value ok).Inv ∧ ∀ k v, (hmapAdd m key value ok).Holds k v ↔
      if k = key then v = value else m.Holds k v := by
  unfold hmapAdd
  cases hfind : hmapFind m key with
  | some e =>
    obtain ⟨hmem, hkey⟩ := h.mem_of_find hfind
    exact h.setValue hmem hkey value
  | none =>
    have hnew := h.find_eq_none.mp hfind
    dsimp only
    obtain ⟨hinv, hlist, hentry, hcount⟩ := h.resize_ite (c := m.size >>> 1 < m.n)
      (Nat.mod_lt (m.size <<< 1) (by norm_num)) ok
    generalize (if m.size >>> 1 < m.n then hmapResize m (m.size <<< 1 % 2 ^ 32) ok else m) = m' at *
    have hholds : ∀ k v, m'.Holds k v ↔ m.Holds k v := fun k v => by
      rw [Hmap.Holds, hlist, hentry, Hmap.Holds]
    simp only [← hholds]
    exact hinv.insert (by rw [hlist, hentry]; exact hnew) (by omega) value

theorem Hmap.Inv.remove (h : m.Inv) (hn : m.n < 2 ^ 30) (key : HmapKey) (ok : Bool) :
    (hmapRemove m key ok).Inv ∧ ∀ k v, (hmapRemove m key ok).Holds k v ↔
      k ≠ key ∧ m.Holds k v := by
  unfold hmapRemove
  dsimp only
  have hlt : m.size >>> 1 < 2 ^ 32 := by
    rw [Nat.shiftRight_one]
    have := h.size_lt
    omega
  obtain ⟨hinv, hlist, hentry, hcount⟩ := h.resize_ite (c := 16 < m.size ∧ m.n < m.size >>> 1)
    hlt ok
  generalize (if 16 < m.size ∧ m.n < m.size >>> 1 then hmapResize m (m.size >>> 1) ok else m) = m'
    at *
  have hholds : ∀ k v, m'.Holds k v ↔ m.Holds k v := fun k v => by
    rw [Hmap.Holds, hlist, hentry, Hmap.Holds]
  simp only [← hholds]
  cases hfind : hmapFind m' key with
  | some e =>
    obtain ⟨hmem, hkey⟩ := hinv.mem_of_find hfind
    exact hinv.delete hmem hkey (by omega)
  | none =>
    refine ⟨hinv, fun k v => ⟨fun hv => ⟨?_, hv⟩, fun hv => hv.2⟩⟩
    rintro rfl
    obtain ⟨e, he, hentry'⟩ := hv
    exact hinv.find_eq_none.mp hfind e he (by rw [hentry'])

/-! ## Runs -/

/-- The calls of a run.  A table that is to be allocated is, or is not. -/
inductive HmapCall
  | add (key : HmapKey) (value : ℕ) (ok : Bool)
  | remove (key : HmapKey) (ok : Bool)
  | search (key : HmapKey)

/-- A map, with the value that was added last for each key, if it was not removed. -/
structure HmapRun where
  /-- The map. -/
  map : Hmap
  /-- The values. -/
  last : HmapKey → Option ℕ

/-- The runs of calls, from a map that `hmap_alloc` has returned for any size. -/
def hmapRuns : Lts.System HmapRun HmapCall Empty where
  init s := (∃ size < 2 ^ 32, ∃ mapOk hashOk, hmapAlloc size mapOk hashOk = some s.map) ∧
    ∀ k, s.last k = none
  step s
    | .add key value ok => .ok ⟨hmapAdd s.map key value ok, update s.last key (some value)⟩
    | .remove key ok => .ok ⟨hmapRemove s.map key ok, update s.last key none⟩
    | .search _ => .ok s

/-- The map holds fewer than `2 ^ 30` entries. -/
def HmapRun.Small (s : HmapRun) (_ : HmapCall) : Prop := s.map.n < 2 ^ 30

end Ginkgo.Libc
