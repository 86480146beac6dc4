import Xq.Lib.Lru
import Xq.Proofs.Core.PreadTotal

/-! The block cache is a least-recently-used cache: what it keeps is decided by the history. -/

namespace Xq

open Lib

/-- A cache entry as `setup_buffers` leaves it. -/
def emptyEntry : CacheEntry := { block := noBlock, used := 0, data := [] }

/-- The entries of a cache of `c` places, the most recently used first: they name the blocks
`keys`, their stamps fall, and every other place is unused. -/
structure CacheOrder (c clock : Nat) (keys : List Nat) (cache es : List CacheEntry) : Prop where
  keys_eq : es.map CacheEntry.block = keys
  places : cache.Perm (es ++ List.replicate (c - es.length) emptyEntry)
  few : es.length ≤ c
  falling : es.Pairwise fun a b => b.used < a.used
  stamped : ∀ e ∈ es, 0 < e.used ∧ e.used ≤ clock
  named : ∀ e ∈ es, e.block ≠ noBlock

/-- The cache holds the blocks `keys`, ordered by their last use. -/
def CacheKeeps (c clock : Nat) (keys : List Nat) (cache : List CacheEntry) : Prop :=
  ∃ es, CacheOrder c clock keys cache es

theorem cacheKeeps_empty (c : Nat) : CacheKeeps c 0 [] (List.replicate c emptyEntry) :=
  ⟨[], rfl, .refl _, Nat.zero_le c, .nil, fun _ wrong => (by cases wrong),
    fun _ wrong => by cases wrong⟩

/-- Writing one place of a list. -/
theorem modify_perm {α : Type} {l : List α} {i : Nat} (inside : i < l.length) (f : α → α) :
    (l.modify i f).Perm (f l[i] :: l.eraseIdx i) := by
  -- Cutting the list at the place shows both sides.
  rw [List.modify_eq_take_cons_drop inside, List.eraseIdx_eq_take_drop_succ]
  exact List.perm_middle

section Victim

/-- The first index of a minimal stamp, as the scan over the entries finds it. -/
theorem scan_min (stamp : Nat → Nat) (n : Nat) :
    let least := (List.range n).foldl (fun v i => if stamp i < stamp v then i else v) 0
    (∀ i < n, stamp least ≤ stamp i) ∧ (least = 0 ∨ least < n) := by
  dsimp only
  -- The scan keeps the least stamp of the entries it has passed, at the first index that has it.
  induction n with
  | zero => exact ⟨fun _ wrong => absurd wrong (Nat.not_lt_zero _), .inl rfl⟩
  | succ n ih =>
    rw [List.range_succ, List.foldl_append]
    generalize (List.range n).foldl (fun v i => if stamp i < stamp v then i else v) 0 = v at ih
    obtain ⟨least, inside⟩ := ih
    rw [List.foldl_cons, List.foldl_nil]
    split
    · rename_i smaller
      -- The new entry is the least so far, and less than every earlier one.
      refine ⟨fun i below => ?_, .inr (Nat.lt_succ_self n)⟩
      rcases Nat.lt_succ_iff_lt_or_eq.mp below with early | rfl
      · exact (smaller.le).trans (least i early)
      · exact Nat.le_refl _
    · rename_i larger
      -- An earlier entry stays the least.
      refine ⟨fun i below => ?_, inside.imp_right Nat.lt_succ_of_lt⟩
      rcases Nat.lt_succ_iff_lt_or_eq.mp below with early | rfl
      · exact least i early
      · exact Nat.not_lt.mp larger

/-- The entry to evict is one of the cache, and none was used before it. -/
theorem cacheVictim_least {cache : List CacheEntry} (some_place : cache ≠ []) :
    ∃ inside : cacheVictim cache < cache.length,
      ∀ e ∈ cache, cache[cacheVictim cache].used ≤ e.used := by
  -- The source scans indices; the stamp of an index is the stamp of its entry.
  have scan := scan_min (fun i => (cache.map CacheEntry.used).getD i 0) cache.length
  dsimp only at scan
  change (∀ i < cache.length, (cache.map CacheEntry.used).getD (cacheVictim cache) 0 ≤
    (cache.map CacheEntry.used).getD i 0) ∧
      (cacheVictim cache = 0 ∨ cacheVictim cache < cache.length) at scan
  obtain ⟨least, place⟩ := scan
  have inside : cacheVictim cache < cache.length := by
    rcases place with first | inside
    · rw [first]
      exact List.length_pos_iff.mpr some_place
    · exact inside
  have stamp {i : Nat} (below : i < cache.length) :
      (cache.map CacheEntry.used).getD i 0 = cache[i].used := by
    rw [List.getD_eq_getElem _ _ (by rwa [List.length_map]), List.getElem_map]
  refine ⟨inside, fun e member => ?_⟩
  obtain ⟨i, below, rfl⟩ := List.getElem_of_mem member
  have order := least i below
  rwa [stamp inside, stamp below] at order

end Victim

section Order

variable {c clock : Nat} {keys : List Nat} {cache es : List CacheEntry}

theorem CacheOrder.length (order : CacheOrder c clock keys cache es) : cache.length = c := by
  -- The places used and those left add up to the capacity.
  rw [order.places.length_eq, List.length_append, List.length_replicate]
  have := order.few
  omega

/-- A place of the cache is used, or as it was set up. -/
theorem CacheOrder.mem_iff (order : CacheOrder c clock keys cache es) {e : CacheEntry} :
    e ∈ cache ↔ e ∈ es ∨ (es.length < c ∧ e = emptyEntry) := by
  -- The places are a rearrangement of the entries used and of empty ones.
  rw [order.places.mem_iff, List.mem_append, List.mem_replicate]
  have positive : c - es.length ≠ 0 ↔ es.length < c := by omega
  rw [positive]

/-- What the scan for a block finds. -/
theorem CacheOrder.holds_iff (order : CacheOrder c clock keys cache es) {b : Nat}
    (named : b ≠ noBlock) : (∃ e ∈ cache, e.block = b) ↔ b ∈ keys := by
  rw [← order.keys_eq, List.mem_map]
  constructor
  · -- An unused place names no block, so a named one is in the order.
    rintro ⟨e, member, rfl⟩
    rcases order.mem_iff.mp member with used | ⟨_, rfl⟩
    · exact ⟨e, used, rfl⟩
    · exact (named rfl).elim
  · rintro ⟨e, used, rfl⟩
    exact ⟨e, order.mem_iff.mpr (.inl used), rfl⟩

/-- A newly stamped entry in front of some of the old ones. -/
theorem CacheOrder.renew (order : CacheOrder c clock keys cache es) {rest : List CacheEntry}
    (part : rest.Sublist es) (entry : CacheEntry) (stamp : entry.used = clock + 1)
    (named : entry.block ≠ noBlock) {places : List CacheEntry} (room : rest.length < c)
    (perm : places.Perm
      (entry :: (rest ++ List.replicate (c - (rest.length + 1)) emptyEntry))) :
    CacheKeeps c (clock + 1) (entry.block :: rest.map CacheEntry.block) places := by
  refine ⟨entry :: rest, rfl, perm, room, List.pairwise_cons.mpr ⟨fun e member => ?_,
    order.falling.sublist part⟩, fun e member => ?_, fun e member => ?_⟩
  · -- Every old stamp is at most the clock, and the new one is above it.
    rw [stamp]
    exact Nat.lt_succ_of_le (order.stamped e (part.subset member)).2
  · rcases List.mem_cons.mp member with rfl | old
    · exact ⟨by omega, stamp.le⟩
    · obtain ⟨positive, below⟩ := order.stamped e (part.subset old)
      exact ⟨positive, Nat.le_succ_of_le below⟩
  · rcases List.mem_cons.mp member with rfl | old
    · exact named
    · exact order.named e (part.subset old)

/-- A hit takes its entry to the front. -/
theorem CacheOrder.hit (order : CacheOrder c clock keys cache es) (distinct : keys.Nodup) {i : Nat}
    (inside : i < cache.length) (named : cache[i].block ≠ noBlock) :
    CacheKeeps c (clock + 1) (touch c cache[i].block keys)
      (cache.modify i fun e => { e with used := clock + 1 }) := by
  have member : cache[i] ∈ es := by
    rcases order.mem_iff.mp (List.getElem_mem inside) with used | ⟨_, empty⟩
    · exact used
    · exact (named (by rw [empty]; rfl)).elim
  have nodup : (es.map CacheEntry.block).Nodup := order.keys_eq.symm ▸ distinct
  -- The others of the order are those that name another block.
  have split : es.Perm (cache[i] :: es.filter fun e => e.block ≠ cache[i].block) := by
    have apart : es.erase cache[i] = es.filter fun e => e.block ≠ cache[i].block := by
      rw [List.Nodup.erase_eq_filter (List.Nodup.of_map _ nodup)]
      refine List.filter_congr fun e used => ?_
      have same : e = cache[i] ↔ e.block = cache[i].block :=
        ⟨congrArg CacheEntry.block, List.inj_on_of_nodup_map nodup used member⟩
      rw [decide_not]
      exact congrArg not (decide_eq_decide.mpr same)
    rw [← apart]
    exact List.perm_cons_erase member
  have count := split.length_eq
  -- Taking the entry out of the order shortens it by one, and a place for it remains.
  rw [List.length_cons] at count
  have few := order.few
  have kept : touch c cache[i].block keys =
      cache[i].block :: (es.filter fun e => e.block ≠ cache[i].block).map CacheEntry.block := by
    rw [touch, ← order.keys_eq, List.filter_map, List.take_of_length_le]
    · rfl
    · rw [List.length_cons, List.length_map]
      exact (count ▸ few : _)
  rw [kept]
  refine order.renew List.filter_sublist { cache[i] with used := clock + 1 } rfl named
    (by omega) ((modify_perm inside _).trans (List.Perm.cons _ ?_))
  rw [← count]
  -- Taking the entry away leaves the same places.
  refine List.Perm.cons_inv (a := cache[i]) ((List.getElem_cons_eraseIdx_perm inside).trans ?_)
  exact order.places.trans (split.append_right _)

/-- A miss takes an unused place, or that of the block used longest ago. -/
theorem CacheOrder.miss (order : CacheOrder c clock keys cache es) (positive : 0 < c)
    (entry : CacheEntry) (fresh : entry.block ∉ keys) (named : entry.block ≠ noBlock)
    (stamp : entry.used = clock + 1) :
    CacheKeeps c (clock + 1) (touch c entry.block keys)
      (cache.modify (cacheVictim cache) fun _ => entry) := by
  -- A block that is not kept leaves the list of kept ones whole.
  have others : keys.filter (· ≠ entry.block) = keys :=
    List.filter_eq_self.mpr fun key member =>
      decide_eq_true fun same => fresh (same ▸ member)
  have length : keys.length = es.length := by rw [← order.keys_eq, List.length_map]
  have some_place : cache ≠ [] := List.ne_nil_of_length_pos (order.length.symm ▸ positive)
  obtain ⟨inside, least⟩ := cacheVictim_least some_place
  -- The victim and the places left make up what was there before.
  have taken := (List.getElem_cons_eraseIdx_perm inside).trans order.places
  have member := order.mem_iff.mp (List.getElem_mem inside)
  generalize cache[cacheVictim cache] = victim at least taken member
  rw [touch, others]
  by_cases full : es.length < c
  · -- An unused place has the stamp zero, so the victim is one.
    have unused := least emptyEntry (order.mem_iff.mpr (.inr ⟨full, rfl⟩))
    have empty : victim = emptyEntry := by
      rcases member with used | ⟨_, empty⟩
      · exact absurd (order.stamped victim used).1 (Nat.not_lt.mpr unused)
      · exact empty
    rw [List.take_of_length_le (by rw [List.length_cons]; omega), ← order.keys_eq]
    refine order.renew (List.Sublist.refl es) entry stamp named full
      ((modify_perm inside _).trans (List.Perm.cons _ ?_))
    refine List.Perm.cons_inv (a := victim) (taken.trans ?_)
    rw [empty, show c - es.length = c - (es.length + 1) + 1 by omega, List.replicate_succ]
    exact List.perm_middle
  · -- With every place used, the last of the order has the smallest stamp.
    have few := order.few
    have all : es.length = c := by omega
    obtain ⟨front, last, rfl⟩ : ∃ front last, es = front ++ [last] :=
      ⟨es.dropLast, es.getLast (List.ne_nil_of_length_pos (all.symm ▸ positive)),
        (List.dropLast_append_getLast _).symm⟩
    have oldest : victim = last := by
      rcases member with used | ⟨room, _⟩
      · -- An earlier one of the order has a larger stamp, so the least one is the last.
        rcases List.mem_append.mp used with early | final
        · have falls := (List.pairwise_append.mp order.falling).2.2 victim early last
            (List.mem_singleton.mpr rfl)
          have smallest := least last (order.mem_iff.mpr (.inl (List.mem_append.mpr
            (.inr (List.mem_singleton.mpr rfl)))))
          exact absurd falls (Nat.not_lt.mpr smallest)
        · exact List.mem_singleton.mp final
      · exact absurd room full
    rw [List.length_append, List.length_singleton] at all
    -- The list of kept blocks loses its last key as the cache loses that entry.
    have shorter : (entry.block :: keys).take c = entry.block :: front.map CacheEntry.block := by
      rw [← order.keys_eq, ← all, List.take_succ_cons, List.map_append]
      rw [List.take_append_of_le_length (by rw [List.length_map]),
        List.take_of_length_le (by rw [List.length_map])]
    rw [shorter]
    refine order.renew (List.sublist_append_left front [last]) entry stamp named (by omega)
      ((modify_perm inside _).trans (List.Perm.cons _ ?_))
    refine List.Perm.cons_inv (a := victim) (taken.trans ?_)
    rw [List.length_append, List.length_singleton, oldest, all, Nat.sub_self, List.replicate_zero,
      List.append_nil, List.append_nil]
    exact List.perm_append_comm

end Order

section Run

variable (zstd : Option CodecVt)

/-- An access: the block, the position within it and the bytes wanted. -/
abbrev Access := Nat × Nat × Nat

/-- A reader after some accesses. The log has the block of each access that has succeeded, and
whether the cache scan found it; the last access comes first. -/
structure Accessed where
  reader : Reader
  log : List (Nat × Bool)

/-- The blocks accessed. -/
def Accessed.used (a : Accessed) : List Nat := a.log.map Prod.fst

/-- The accesses that found their block. -/
def Accessed.hits (a : Accessed) : List (Nat × Bool) := a.log.filter fun access => access.2

/-- The accesses that decoded their block. -/
def Accessed.misses (a : Accessed) : List (Nat × Bool) := a.log.filter fun access => !access.2

/-- One access through `block_copy`. -/
def Accessed.access (a : Accessed) (access : Access) : Accessed :=
  let (bi, within, take) := access
  match Reader.blockCopy zstd a.reader bi within take with
  | (.error _, r) => { a with reader := r }
  | (.ok _, r) => { reader := r, log := (bi, (a.reader.cacheFind bi).isSome) :: a.log }

/-- A sequence of accesses, from the first on. -/
def Accessed.run (accesses : List Access) (a : Accessed) : Accessed :=
  accesses.foldl (Accessed.access zstd) a

end Run

/-- What a reader that began with `c` unused places has in its cache and its statistics. -/
structure Accessed.Lru (c : Nat) (a : Accessed) : Prop where
  keeps : CacheKeeps c a.reader.clock ((recent a.used).take c) a.reader.cache
  hits : a.reader.statHits = a.hits.length
  misses : a.reader.statMisses = a.misses.length
  decoded : ∀ b ∈ a.used, (b, false) ∈ a.log

/-- A reader finds the blocks its cache keeps. -/
theorem CacheKeeps.cacheFind {c clock : Nat} {keys : List Nat} {r : Reader}
    (keeps : CacheKeeps c clock keys r.cache) {b : Nat} (named : b ≠ noBlock) :
    (r.cacheFind b).isSome ↔ b ∈ keys := by
  -- A lookup finds a block if some entry holds it.
  obtain ⟨es, order⟩ := keeps
  rw [← order.holds_iff named, Reader.cacheFind, List.findIdx?_isSome, List.any_eq_true]
  simp only [decide_eq_true_eq]

section Lru

variable {zstd : Option CodecVt} {c : Nat} {a : Accessed}

/-- The scan finds a block with fewer than `c` others used since. -/
theorem Accessed.Lru.found_iff (lru : a.Lru c) {b : Nat} (named : b ≠ noBlock) :
    -- What is kept is the front of the recency list, and its front is who was used last.
    (a.reader.cacheFind b).isSome ↔ b ∈ a.used ∧ (usedSince b a.used).card < c :=
  (lru.keeps.cacheFind named).trans mem_recent_take

/-- A failed copy leaves the cache and its statistics as they were. -/
theorem Reader.blockCopy_error {r r' : Reader} {bi within take : Nat} {st : XqStatus}
    (failed : Reader.blockCopy zstd r bi within take = (.error st, r')) :
    r'.cache = r.cache ∧ r'.clock = r.clock ∧ r'.statHits = r.statHits ∧
      r'.statMisses = r.statMisses := by
  rw [Reader.blockCopy] at failed
  -- Only the two successful ends write the cache or the counts.
  split at failed
  · cases failed
  split at failed
  · cases failed
    exact ⟨rfl, rfl, rfl, rfl⟩
  dsimp only at failed
  split at failed
  · cases failed
    exact ⟨rfl, rfl, rfl, rfl⟩
  · cases failed

/-- A copy that succeeds has found its block or decoded it into the place of the victim. -/
theorem Reader.blockCopy_ok {r r' : Reader} {bi within take : Nat} {copied : Nat × Bytes}
    (done : Reader.blockCopy zstd r bi within take = (.ok copied, r')) :
    (∃ i, r.cacheFind bi = some i ∧
      r'.cache = r.cache.modify i (fun c => { c with used := r.clock + 1 }) ∧
      r'.clock = r.clock + 1 ∧ r'.statHits = r.statHits + 1 ∧ r'.statMisses = r.statMisses) ∨
    (r.cacheFind bi = none ∧ ∃ data,
      r'.cache = r.cache.modify (cacheVictim r.cache)
        (fun _ => { block := bi, used := r.clock + 1, data := data }) ∧
      r'.clock = r.clock + 1 ∧ r'.statHits = r.statHits ∧ r'.statMisses = r.statMisses + 1) := by
  rw [Reader.blockCopy] at done
  split at done
  · -- A hit: the entry is used once more.
    rename_i i found
    cases done
    exact .inl ⟨i, found, rfl, rfl, rfl, rfl⟩
  -- A miss: the block is decoded, and takes the victim's place.
  rename_i absent
  split at done
  · cases done
  dsimp only at done
  split at done
  · cases done
  · cases done
    exact .inr ⟨absent, _, rfl, rfl, rfl, rfl⟩

/-- One access keeps the order. -/
theorem Accessed.Lru.access (lru : a.Lru c) (positive : 0 < c) {access : Access}
    (named : access.1 ≠ noBlock) : (a.access zstd access).Lru c := by
  obtain ⟨bi, within, take⟩ := access
  rw [Accessed.access]
  generalize copy : Reader.blockCopy zstd a.reader bi within take = result
  obtain ⟨copied, r'⟩ := result
  cases copied with
  | error st =>
    -- A failed access is not in the log, and what it leaves is what was there.
    obtain ⟨cache, clock, hits, misses⟩ := Reader.blockCopy_error copy
    refine ⟨?_, hits.trans lru.hits, misses.trans lru.misses, lru.decoded⟩
    rw [show ({ a with reader := r' } : Accessed).reader = r' from rfl, cache, clock]
    exact lru.keeps
  | ok pair =>
    -- An access that succeeds puts its block in front of the others.
    obtain ⟨es, order⟩ := lru.keeps
    have distinct : ((recent a.used).take c).Nodup :=
      (recent_nodup a.used).sublist (List.take_sublist c _)
    have next : (recent (bi :: a.used)).take c = touch c bi ((recent a.used).take c) :=
      recent_take_cons bi a.used c
    rcases Reader.blockCopy_ok copy with ⟨i, found, cache, clock, hits, misses⟩ |
      ⟨absent, data, cache, clock, hits, misses⟩
    · -- The block is found: its entry is stamped anew and counted as a hit.
      obtain ⟨inside, here, _⟩ := List.findIdx?_eq_some_iff_getElem.mp found
      have block : a.reader.cache[i].block = bi := of_decide_eq_true here
      have hit := order.hit distinct inside (block.symm ▸ named)
      rw [block, ← next, ← cache, ← clock] at hit
      refine ⟨hit, ?_, ?_, fun b used => ?_⟩
      · rw [found]
        exact hits.trans (congrArg (· + 1) lru.hits)
      · rw [found]
        exact misses.trans lru.misses
      · -- A block that is found has been decoded before.
        refine List.mem_cons_of_mem _ (lru.decoded b ?_)
        rcases List.mem_cons.mp used with rfl | before
        · exact ((lru.found_iff named).mp (by rw [found]; rfl)).1
        · exact before
    · -- The block is decoded: the victim's place is written, and counted as a miss.
      have fresh : bi ∉ (recent a.used).take c := fun kept => by
        have found := (lru.keeps.cacheFind named).mpr kept
        rw [absent] at found
        cases found
      have miss := order.miss positive ⟨bi, a.reader.clock + 1, data⟩ fresh named rfl
      rw [← next, ← cache, ← clock] at miss
      refine ⟨miss, ?_, ?_, fun b used => ?_⟩
      · rw [absent]
        exact hits.trans lru.hits
      · rw [absent]
        exact misses.trans (congrArg (· + 1) lru.misses)
      · rw [absent]
        rcases List.mem_cons.mp used with rfl | before
        · exact List.mem_cons_self
        · exact List.mem_cons_of_mem _ (lru.decoded b before)

/-- Any number of accesses keeps it. -/
theorem Accessed.Lru.run (zstd : Option CodecVt) (accesses : List Access) (lru : a.Lru c)
    (positive : 0 < c) (named : ∀ access ∈ accesses, access.1 ≠ noBlock) :
    (a.run zstd accesses).Lru c := by
  -- Induction on the accesses, one step each.
  induction accesses generalizing a with
  | nil => exact lru
  | cons access rest ih =>
    exact ih (lru.access positive (named access List.mem_cons_self))
      fun later member => named later (List.mem_cons_of_mem _ member)

end Lru

section Opened

variable {zstd : Option CodecVt} {file : Bytes} {opts : Option ReaderOpts} {cpus : Nat}
  {base : Reader}

/-- The places of a cache, unless a memory limit cuts them down. -/
theorem Reader.setupBuffers_places {r r' : Reader} {o : ReaderOpts}
    (ready : r.setupBuffers (some o) cpus = (.ok, r')) (unlimited : o.memLimit = 0)
    (asked : o.cacheBlocks ≠ 0) : r'.cache.length = o.cacheBlocks := by
  -- Without a limit the number asked for is the number made.
  rw [Reader.setupBuffers] at ready
  simp only [Option.map_some, Option.getD_some, unlimited, ne_eq, not_true_eq_false, false_and,
    if_false, asked, not_false_eq_true, if_true] at ready
  rw [← (Prod.mk.inj ready).2]
  exact List.length_replicate

/-- A reader that has not been read from. -/
def Reader.Unread (r : Reader) : Prop := r.clock = 0 ∧ r.statHits = 0 ∧ r.statMisses = 0

theorem Reader.unread_kept (zstd : Option CodecVt) : Reader.KeptLoading zstd Reader.Unread where
  loadDict {r} memLimit payload holds := by
    -- Loading a dictionary touches neither cache nor counters.
    unfold Reader.loadDict
    split; · exact holds
    split; · exact holds
    split
    dsimp only
    split; · exact holds
    split
    · exact holds
    · exact holds

/-- Opening a file leaves an empty cache of some places, and statistics of zero. -/
theorem readerOpen_unread (opened : readerOpen zstd file opts cpus = .ok base) :
    0 < base.cache.length ∧ base.cache = List.replicate base.cache.length emptyEntry ∧
      base.Unread ∧ base.blockCount < noBlock := by
  obtain ⟨hdr, footer, codec, ip, entries, loaded, _, _, index, metadata, buffers⟩ :=
    readerOpen_ok.mp opened
  -- Loading the metadata touches neither the cache nor its counts.
  have unread : (Reader.loadMeta zstd (readerBlank file hdr footer codec ip entries)
      ((opts.map ReaderOpts.memLimit).getD 0)).2.Unread :=
    (Reader.unread_kept zstd).loadMeta _ ⟨rfl, rfl, rfl⟩
  have same := (Reader.sameIndex_kept zstd (readerBlank file hdr footer codec ip entries)).loadMeta
    ((opts.map ReaderOpts.memLimit).getD 0) ⟨rfl, rfl, rfl, rfl⟩
  rw [metadata] at unread same
  -- What is left is the cache `setup_buffers` makes.
  obtain ⟨ncache, _, positive, _, rfl⟩ := Reader.setupBuffers_ok buffers
  have count := (loadIndex_ok index).blockCount_lt
  refine ⟨?_, ?_, unread, ?_⟩
  · show 0 < (List.replicate ncache emptyEntry).length
    rwa [List.length_replicate]
  · show List.replicate ncache emptyEntry =
      List.replicate (List.replicate ncache emptyEntry).length emptyEntry
    rw [List.length_replicate]
  · show loaded.blockCount < 2 ^ 64 - 1
    rw [same.2.2.1]
    show ip.blockCount.toNat < 2 ^ 64 - 1
    omega

/--
The block cache is exactly a least-recently-used cache.

After any accesses to an opened file, the next one finds its block when that has been decoded
and fewer than as many others as the cache has places were used since. The statistics count the
hits and the misses that were decoded, and a failure changes neither them nor the cache.
-/
theorem blockCopy_lru (opened : readerOpen zstd file opts cpus = .ok base)
    (accesses : List Access) (inside : ∀ access ∈ accesses, access.1 < base.blockCount) :
    let c := base.cache.length
    let a := Accessed.run zstd accesses { reader := base, log := [] }
    (0 < c ∧ ∀ o, opts = some o → o.memLimit = 0 → o.cacheBlocks ≠ 0 → c = o.cacheBlocks) ∧
    (∀ b < base.blockCount, (a.reader.cacheFind b).isSome ↔
      (b, false) ∈ a.log ∧ (usedSince b a.used).card < c) ∧
    a.reader.statHits = a.hits.length ∧ a.reader.statMisses = a.misses.length ∧
    ∀ b within take st r', Reader.blockCopy zstd a.reader b within take = (.error st, r') →
      r'.cache = a.reader.cache ∧ r'.clock = a.reader.clock ∧
        r'.statHits = a.reader.statHits ∧ r'.statMisses = a.reader.statMisses := by
  dsimp only
  obtain ⟨positive, empty, ⟨clock, hits, misses⟩, few⟩ := readerOpen_unread opened
  -- An opened reader stands for the empty history.
  have start : Accessed.Lru base.cache.length { reader := base, log := [] } := by
    refine ⟨?_, hits, misses, fun _ wrong => by cases wrong⟩
    show CacheKeeps base.cache.length base.clock ([].take base.cache.length) base.cache
    rw [clock, List.take_nil]
    generalize base.cache.length = c at empty
    rw [empty]
    exact cacheKeeps_empty c
  -- No block of a file has the number that marks an unused place.
  have named {b : Nat} (below : b < base.blockCount) : b ≠ noBlock :=
    Nat.ne_of_lt (below.trans few)
  have lru := start.run zstd accesses positive
    fun access member => named (inside access member)
  refine ⟨⟨positive, ?_⟩, fun b below => ?_, lru.hits, lru.misses, ?_⟩
  · rintro o rfl unlimited asked
    obtain ⟨ready⟩ := readerOpen_ok.mp opened
    exact Reader.setupBuffers_places ready.buffers unlimited asked
  · -- Found means used before and kept, and whatever was used was decoded once.
    rw [lru.found_iff (named below)]
    refine and_congr_left fun _ => ⟨lru.decoded b, fun member => ?_⟩
    exact List.mem_map.mpr ⟨(b, false), member, rfl⟩
  · exact fun _ _ _ _ _ failed => Reader.blockCopy_error failed

/-- Two blocks read in turn, on a file that opens. -/
theorem blockCopy_lru_overlap : ∃ r, readerOpen none overlapFile none 1 = .ok r ∧
    ∀ b < r.blockCount,
      ((Accessed.run none [(0, 0, 1), (1, 0, 1), (0, 0, 1)] ⟨r, []⟩).reader.cacheFind b).isSome ↔
        (b, false) ∈ (Accessed.run none [(0, 0, 1), (1, 0, 1), (0, 0, 1)] ⟨r, []⟩).log ∧
        (usedSince b (Accessed.run none [(0, 0, 1), (1, 0, 1), (0, 0, 1)] ⟨r, []⟩).used).card <
          r.cache.length := by
  -- The layout says that the file has two blocks, so the accesses are in range.
  have layout : ((readerOpen none overlapFile none 1).toOption.map fun r => r.blockCount) =
      some 2 := by decide +kernel
  cases opened : readerOpen none overlapFile none 1 with
  | error st =>
    rw [opened] at layout
    cases layout
  | ok r =>
    rw [opened] at layout
    have count : r.blockCount = 2 := Option.some.inj layout
    refine ⟨r, rfl, (blockCopy_lru opened [(0, 0, 1), (1, 0, 1), (0, 0, 1)] ?_).2.1⟩
    rw [count]
    decide

end Opened

end Xq
