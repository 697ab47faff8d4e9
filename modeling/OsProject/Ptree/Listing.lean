import OsProject.Ptree.ProcessTree

/-!
# The listing that `ptree` stores

The walk of `pstree_dfs` stores the records of the listing of the tree below a process one after
the other, as long as there is room, and comes back with the counter `layer` it started with.
Stored into a buffer that takes all stores, the records of a listing fill the indices from `idx` on
and leave the others alone.

## Main definitions

* `storeEntry` — what the walk does with one entry of a listing.
* `Listed` — a buffer has the listing of a tree.

## Main results

* `pstreeDfs_eq` — the walk stores the entries of a tree in the order of its listing.
* `ptree_lists_preorder` — `ptree` lists the process tree.
-/

namespace OsProject.Ptree

open Intrusive RoseTree

variable {τ : Type*} {k : Kernel τ} {nr : ℤ}

/-- Store the record of an entry, if there is room. -/
def storeEntry (k : Kernel τ) (nr : ℤ) (w : Walk) (e : Entry τ) : Walk :=
  if w.idx < nr then
    { w with buf := storeRecord w.buf w.idx (record k e), idx := w.idx + 1 }
  else w

/-- Store the records of a listing, as long as there is room. -/
def storeEntries (k : Kernel τ) (nr : ℤ) (w : Walk) (es : List (Entry τ)) : Walk :=
  es.foldl (storeEntry k nr) w

/-- The end of `ptree`: the end mark in the next record, if there is room. -/
def finish (nr : ℤ) (w : Walk) : UserBuf :=
  if w.idx < nr then w.buf.copyToUser w.idx finishHere else w.buf

/-! ### The buffer -/

/-- Every store into a record below `nr` succeeds. -/
def UserBuf.Writable (buf : UserBuf) (nr : ℤ) : Prop :=
  ∀ (i : ℕ) (f : Field), (i : ℤ) < nr → f.bytes ≤ buf.writable i f

theorem Comm.overwrite_self (c d : Comm) {n : ℕ} (hn : 16 ≤ n) : c.overwrite (d.1.take n) = d := by
  have hd := d.2
  have hc := c.2
  have htake : d.1.take n = d.1 := List.take_of_length_le (by omega)
  have hdrop : c.1.drop d.1.length = [] := List.drop_of_length_le (by omega)
  apply Subtype.ext
  change (d.1.take n ++ c.1.drop (d.1.take n).length).take 16 = d.1
  rw [htake, hdrop, List.append_nil, List.take_of_length_le (by omega)]

/-- A record after the stores of another one into it, when so many leading bytes of each field can
be stored to. -/
def Prinfo.stored (writable : Field → ℕ) (old new : Prinfo) : Prinfo where
  parentPid := if Field.parentPid.bytes ≤ writable .parentPid then new.parentPid else old.parentPid
  pid := if Field.pid.bytes ≤ writable .pid then new.pid else old.pid
  firstChildPid :=
    if Field.firstChildPid.bytes ≤ writable .firstChildPid then new.firstChildPid
    else old.firstChildPid
  nextSiblingPid :=
    if Field.nextSiblingPid.bytes ≤ writable .nextSiblingPid then new.nextSiblingPid
    else old.nextSiblingPid
  state := if Field.state.bytes ≤ writable .state then new.state else old.state
  uid := if Field.uid.bytes ≤ writable .uid then new.uid else old.uid
  comm := old.comm.overwrite (new.comm.1.take (writable .comm))
  layer := if Field.layer.bytes ≤ writable .layer then new.layer else old.layer

/-- When all stores succeed the record is the new one. -/
theorem Prinfo.stored_eq {writable : Field → ℕ} (hw : ∀ f : Field, f.bytes ≤ writable f)
    (old new : Prinfo) : old.stored writable new = new := by
  rw [stored, if_pos (hw .parentPid), if_pos (hw .pid), if_pos (hw .firstChildPid),
    if_pos (hw .nextSiblingPid), if_pos (hw .state), if_pos (hw .uid), if_pos (hw .layer),
    Comm.overwrite_self _ _ (hw .comm)]

section Buffer

variable {buf : UserBuf} {i : ℕ}

/-- A store of a value changes one field of one record, if all bytes of the field can be stored
to. -/
theorem UserBuf.putUser_records {α : Type*} {r : ℕ → Prinfo} {a : Prinfo} (f : Field)
    (put : α → Prinfo → Prinfo) (get : Prinfo → α) (x : α) (hput : ∀ p, put (get p) p = p)
    (h : buf.records = Function.update r i a) :
    (buf.putUser i f (put x)).records =
      Function.update r i (put (if f.bytes ≤ buf.writable i f then x else get a) a) := by
  rw [UserBuf.putUser]
  split
  · rw [h, Function.update_self, Function.update_idem]
  · rw [hput]
    exact h

/-- A copy of a name changes one record. -/
theorem UserBuf.copyToUser_records {r : ℕ → Prinfo} {a : Prinfo} (src : List UInt8)
    (h : buf.records = Function.update r i a) :
    (buf.copyToUser i src).records =
      Function.update r i { a with comm := a.comm.overwrite (src.take (buf.writable i .comm)) } := by
  rw [UserBuf.copyToUser, h, Function.update_self, Function.update_idem]

/-- The stores of one record. -/
theorem storeRecord_records (buf : UserBuf) (i : ℕ) (r : Prinfo) :
    (storeRecord buf i r).records =
      Function.update buf.records i ((buf.records i).stored (buf.writable i) r) := by
  have h := (Function.update_eq_self i buf.records).symm
  have h := UserBuf.putUser_records .parentPid (fun x p => { p with parentPid := x })
    Prinfo.parentPid r.parentPid (fun _ => rfl) h
  have h := UserBuf.putUser_records .pid (fun x p => { p with pid := x })
    Prinfo.pid r.pid (fun _ => rfl) h
  have h := UserBuf.putUser_records .firstChildPid (fun x p => { p with firstChildPid := x })
    Prinfo.firstChildPid r.firstChildPid (fun _ => rfl) h
  have h := UserBuf.putUser_records .nextSiblingPid (fun x p => { p with nextSiblingPid := x })
    Prinfo.nextSiblingPid r.nextSiblingPid (fun _ => rfl) h
  have h := UserBuf.putUser_records .state (fun x p => { p with state := x })
    Prinfo.state r.state (fun _ => rfl) h
  have h := UserBuf.putUser_records .uid (fun x p => { p with uid := x })
    Prinfo.uid r.uid (fun _ => rfl) h
  have h := UserBuf.copyToUser_records r.comm.1 h
  have h := UserBuf.putUser_records .layer (fun x p => { p with layer := x })
    Prinfo.layer r.layer (fun _ => rfl) h
  exact h

/-- The stores of one record are into that record. -/
theorem storeRecord_stores (buf : UserBuf) (i : ℕ) (r : Prinfo) :
    (storeRecord buf i r).stores = buf.stores ++
      [(i, .parentPid), (i, .pid), (i, .firstChildPid), (i, .nextSiblingPid), (i, .state),
        (i, .uid), (i, .comm), (i, .layer)] := by
  simp [storeRecord, UserBuf.putUser, UserBuf.copyToUser]

end Buffer

/-- Storing entries does not change which stores succeed. -/
theorem storeEntry_writable (w : Walk) (e : Entry τ) :
    (storeEntry k nr w e).buf.writable = w.buf.writable := by
  unfold storeEntry
  split <;> rfl

theorem storeEntries_writable (es : List (Entry τ)) :
    ∀ w : Walk, (storeEntries k nr w es).buf.writable = w.buf.writable := by
  induction es with
  | nil => exact fun _ => rfl
  | cons e es ih => exact fun w => (ih _).trans (storeEntry_writable w e)

/-- The stores of a listing are into records below `nr`. -/
theorem storeEntries_stores (es : List (Entry τ)) :
    ∀ w : Walk, ∀ p ∈ (storeEntries k nr w es).buf.stores, p ∈ w.buf.stores ∨ (p.1 : ℤ) < nr := by
  induction es with
  | nil => exact fun w p hp => .inl hp
  | cons e es ih =>
    intro w p hp
    rcases ih _ p hp with hp | hlt
    · rw [storeEntry] at hp
      split at hp
      · next hidx =>
        rw [storeRecord_stores, List.mem_append] at hp
        rcases hp with hp | hp
        · exact .inl hp
        · have hp : p.1 = w.idx := by
            simp only [List.mem_cons, List.not_mem_nil, or_false] at hp
            rcases hp with rfl | rfl | rfl | rfl | rfl | rfl | rfl | rfl <;> rfl
          exact .inr (hp ▸ hidx)
      · exact .inl hp
    · exact .inr hlt

/-- The number of records filled: one for each entry, as long as there is room. -/
theorem storeEntries_idx (es : List (Entry τ)) : ∀ w : Walk,
    (storeEntries k nr w es).idx = w.idx + min es.length (nr - w.idx).toNat := by
  induction es with
  | nil => exact fun w => by simp [storeEntries]
  | cons e es ih =>
    intro w
    have hcons : storeEntries k nr w (e :: es) = storeEntries k nr (storeEntry k nr w e) es := rfl
    rw [hcons, ih, storeEntry, List.length_cons]
    split
    · dsimp only
      omega
    · omega

/-- A listing is stored into the records from `idx` on that are below `nr`, one for each entry. The
others are left alone. -/
theorem storeEntries_records (es : List (Entry τ)) : ∀ (w : Walk) (i : ℕ),
    (storeEntries k nr w es).buf.records i =
      if w.idx ≤ i ∧ (i : ℤ) < nr then
        (es[i - w.idx]?.map fun e =>
          (w.buf.records i).stored (w.buf.writable i) (record k e)).getD (w.buf.records i)
      else w.buf.records i := by
  induction es with
  | nil => exact fun w i => by simp [storeEntries]
  | cons e es ih =>
    intro w i
    have hcons : storeEntries k nr w (e :: es) = storeEntries k nr (storeEntry k nr w e) es := rfl
    rw [hcons, ih, storeEntry_writable, storeEntry]
    split
    · next hidx =>
      dsimp only
      rw [storeRecord_records]
      rcases Nat.lt_trichotomy i w.idx with hi | rfl | hi
      · rw [if_neg (by omega), if_neg (by omega), Function.update_of_ne (by omega)]
      · rw [if_neg (by omega), if_pos ⟨Nat.le_refl _, hidx⟩, Function.update_self, Nat.sub_self]
        rfl
      · have hget : (e :: es)[i - w.idx]? = es[i - (w.idx + 1)]? := by
          rw [show i - w.idx = i - (w.idx + 1) + 1 by omega, List.getElem?_cons_succ]
        rw [hget, Function.update_of_ne (by omega)]
        exact if_congr (by omega) rfl rfl
    · rw [if_neg (by omega), if_neg (by omega)]

/-! ### The walk -/

theorem storeEntries_append (w : Walk) (es fs : List (Entry τ)) :
    storeEntries k nr w (es ++ fs) = storeEntries k nr (storeEntries k nr w es) fs :=
  List.foldl_append

theorem storeEntry_layer (w : Walk) (e : Entry τ) : (storeEntry k nr w e).layer = w.layer := by
  unfold storeEntry
  split <;> rfl

/-- The entries are stored without regard to the counter `layer`. -/
theorem storeEntry_setLayer (w : Walk) (e : Entry τ) (layer : ℤ) :
    storeEntry k nr { w with layer := layer } e =
      { storeEntry k nr w e with layer := layer } := by
  unfold storeEntry
  split <;> rfl

theorem storeEntries_layer (es : List (Entry τ)) :
    ∀ w : Walk, (storeEntries k nr w es).layer = w.layer := by
  induction es with
  | nil => exact fun _ => rfl
  | cons e es ih => exact fun w => (ih _).trans (storeEntry_layer w e)

theorem storeEntries_setLayer (layer : ℤ) (es : List (Entry τ)) :
    ∀ w : Walk, storeEntries k nr { w with layer := layer } es =
      { storeEntries k nr w es with layer := layer } := by
  induction es with
  | nil => exact fun _ => rfl
  | cons e es ih =>
    intro w
    rw [storeEntries, List.foldl_cons, storeEntry_setLayer]
    exact ih _

variable [DecidableEq τ]

/-- One round of the loop: the record of the child `c`, and then the trees below it, one layer
further down. -/
theorem visitChild_eq {p : τ} {c : RoseTree τ} {cs : List (RoseTree τ)} {l : List (Node τ)}
    {dfs : τ → Walk → Option Walk} {depth : ℕ} {w : Walk}
    (hring : Ring k.links (.children p) (l ++ .sibling c.val :: cs.map fun c => .sibling c.val))
    (hparent : (k.task c.val).realParent = some p) (hc : Linked k c) (hw : w.layer = depth)
    (hdfs : ∀ {w : Walk}, w.layer = (depth + 1 : ℕ) → dfs c.val w =
      some (storeEntries k nr w (forestListing c.val (depth + 1) c.children))) :
    visitChild k nr dfs (.sibling c.val) w =
      some (storeEntries k nr w (listingAt (some p) depth (headVal cs) c)) := by
  set e : Entry τ := ⟨c.val, some p, depth, headVal c.children, headVal cs⟩
  have hstore : (if w.idx < nr then fillRecord k c.val w else some w) =
      some (storeEntry k nr w e) := by
    rw [storeEntry]
    split
    · exact fillRecord_eq hring hparent hc hw
    · rfl
  have hlayer : (storeEntry k nr w e).layer = depth := (storeEntry_layer w e).trans hw
  have hback : (storeEntries k nr w
      (e :: forestListing c.val (depth + 1) c.children)).layer =
        (storeEntry k nr w e).layer + 1 - 1 := by
    rw [storeEntries_layer, hw, hlayer, Int.add_sub_cancel]
  rw [visitChild, listEntry, Option.bind_some, hstore, Option.bind_some,
    hdfs (by rw [hlayer]; rfl), storeEntries_setLayer, listingAt_eq, Option.map_some, ← hback]
  rfl

mutual

/-- The walk below the root of a linked tree stores the listing of the trees below it. -/
theorem pstreeDfs_eq : ∀ (t : RoseTree τ) {fuel depth : ℕ} {w : Walk}, Linked k t →
    t.size ≤ fuel → w.layer = depth →
      pstreeDfs k nr fuel t.val w =
        some (storeEntries k nr w (forestListing t.val depth t.children))
  | .node a ts, 0, _, _, _, hfuel, _ => absurd hfuel (Nat.not_le.mpr (size_pos _))
  | .node a ts, fuel + 1, depth, w, ht, hfuel, hw => by
    have hsize : forestSize ts ≤ fuel := Nat.le_of_succ_le_succ hfuel
    have hlength : (ts.map fun c => Node.sibling c.val).length ≤ fuel := by
      have := length_le_forestSize ts
      rw [List.length_map]
      omega
    rw [pstreeDfs]
    exact (ht.ring.listForEach hlength).trans
      (visitChildren_eq ts (l := []) ht.ring ht.forest hsize hw)

/-- The loop over the children stores their trees one after the other. The nodes of the list that
the loop has passed are `l`. -/
theorem visitChildren_eq : ∀ (ts : List (RoseTree τ)) {l : List (Node τ)} {a : τ}
    {fuel depth : ℕ} {w : Walk},
    Ring k.links (.children a) (l ++ ts.map fun c => .sibling c.val) → ForestLinked k a ts →
    forestSize ts ≤ fuel → w.layer = depth →
      (ts.map fun c => Node.sibling c.val).foldlM
        (fun w list => visitChild k nr (pstreeDfs k nr fuel) list w) w =
      some (storeEntries k nr w (forestListing a depth ts))
  | [], _, _, _, _, _, _, _, _, _ => rfl
  | c :: cs, l, a, fuel, depth, w, hring, hforest, hfuel, hw => by
    rw [ForestLinked] at hforest
    obtain ⟨hparent, hc, hcs⟩ := hforest
    rw [forestSize] at hfuel
    have hfuelc : c.size ≤ fuel := by omega
    have hfuelcs : forestSize cs ≤ fuel := by omega
    have hvisit : visitChild k nr (pstreeDfs k nr fuel) (.sibling c.val) w =
        some (storeEntries k nr w (listingAt (some a) depth (headVal cs) c)) :=
      visitChild_eq hring hparent hc hw fun hw => pstreeDfs_eq c hc hfuelc hw
    have hlayer : (storeEntries k nr w (listingAt (some a) depth (headVal cs) c)).layer = depth :=
      (storeEntries_layer _ w).trans hw
    have hrest := visitChildren_eq cs (l := l ++ [.sibling c.val])
      (by rwa [List.append_assoc]) hcs hfuelcs hlayer
    rw [List.map_cons, List.foldlM_cons, hvisit, forestListing, storeEntries_append]
    exact hrest

end

/-- `ptree` stores the listing of the process tree and then, if there is room, the end mark. -/
theorem ptree_eq (P : ProcessTree k) {fuel : ℕ} (hfuel : P.tree.size ≤ fuel) (buf : UserBuf) :
    ptree k fuel (some buf) (some nr) =
      some (0, some (finish nr (storeEntries k nr ⟨buf, 0, 0⟩ P.tree.listing))) := by
  set e : Entry τ := ⟨P.tree.val, none, 0, headVal P.tree.children, none⟩
  set w : Walk := ⟨buf, 0, 0⟩
  have hroot : (if (w.idx : ℤ) < nr then fillRoot k w else some w) =
      some (storeEntry k nr w e) := by
    rw [storeEntry]
    split
    · exact fillRoot_eq P rfl
    · rfl
  have hlayer : (storeEntry k nr w e).layer + 1 = (1 : ℕ) := by
    rw [storeEntry_layer]
    rfl
  have hdfs : pstreeDfs k nr fuel P.tree.val
      { storeEntry k nr w e with layer := (storeEntry k nr w e).layer + 1 } =
        some (storeEntries k nr { storeEntry k nr w e with layer := (storeEntry k nr w e).layer + 1 }
          (forestListing P.tree.val 1 P.tree.children)) :=
    pstreeDfs_eq P.tree P.linked hfuel hlayer
  rw [storeEntries_setLayer] at hdfs
  rw [ptree, hroot, Option.bind_some, ← P.val_eq, hdfs, Option.map_some, listing, listingAt_eq]
  exact congrArg some (apply_ite (fun b => ((0 : ℤ), some b)) _ _ _).symm

/-! ### The result -/

/-- The buffer `out` has the listing of the tree, as far as there is room, and is otherwise as
`buf` was, up to the end mark behind the listing. -/
structure Listed (k : Kernel τ) (tree : RoseTree τ) (nr : ℤ) (buf out : UserBuf) : Prop where
  /-- The records below `nr` are those of the listing, in order. -/
  filled : ∀ (i : ℕ) (e : Entry τ), tree.listing[i]? = some e → (i : ℤ) < nr →
    out.records i = record k e
  /-- Behind the listing only the next record may change. -/
  untouched : ∀ i : ℕ, tree.size < i → out.records i = buf.records i
  /-- No store into a record from `nr` on was attempted. -/
  stores : ∀ p ∈ out.stores, p ∈ buf.stores ∨ (p.1 : ℤ) < nr
  beyond : ∀ i : ℕ, nr ≤ i → out.records i = buf.records i
  /-- With room to spare, the name in the next record is the end mark. -/
  endMark : (tree.size : ℤ) < nr → finishHere <+: (out.records tree.size).comm.1

theorem UserBuf.copyToUser_records_of_ne {buf : UserBuf} {i j : ℕ} {src : List UInt8}
    (h : j ≠ i) : (buf.copyToUser i src).records j = buf.records j :=
  Function.update_of_ne h _ _

/-- A copy of at most 16 bytes that can all be stored to is found at the start of the name. -/
theorem UserBuf.prefix_copyToUser {buf : UserBuf} {i : ℕ} {src : List UInt8}
    (hw : src.length ≤ buf.writable i .comm) (hsrc : src.length ≤ 16) :
    src <+: ((buf.copyToUser i src).records i).comm.1 := by
  have htake : src.take (buf.writable i .comm) = src := List.take_of_length_le hw
  have hcomm : ((buf.copyToUser i src).records i).comm =
      (buf.records i).comm.overwrite (src.take (buf.writable i .comm)) :=
    congrArg Prinfo.comm (Function.update_self i _ buf.records)
  rw [hcomm, htake]
  change src <+: (src ++ _).take 16
  rw [List.take_append, List.take_of_length_le hsrc]
  exact List.prefix_append _ _

omit [DecidableEq τ] in
/-- The end mark goes behind the records of the tree. -/
theorem finish_listing (tree : RoseTree τ) (buf : UserBuf) :
    finish nr (storeEntries k nr ⟨buf, 0, 0⟩ tree.listing) =
      if (tree.size : ℤ) < nr then
        (storeEntries k nr ⟨buf, 0, 0⟩ tree.listing).buf.copyToUser tree.size finishHere
      else (storeEntries k nr ⟨buf, 0, 0⟩ tree.listing).buf := by
  have hlength : tree.listing.length = tree.size := tree.length_listing
  have hidx : (storeEntries k nr ⟨buf, 0, 0⟩ tree.listing).idx = min tree.size nr.toNat := by
    have h : (storeEntries k nr ⟨buf, 0, 0⟩ tree.listing).idx =
        0 + min tree.listing.length (nr - (0 : ℕ)).toNat := storeEntries_idx tree.listing ⟨buf, 0, 0⟩
    omega
  rw [finish, hidx]
  by_cases hroom : (tree.size : ℤ) < nr
  · rw [if_pos hroom, Nat.min_eq_left (by omega), if_pos hroom]
  · rw [if_neg hroom, if_neg (by omega)]

omit [DecidableEq τ] in
/-- The records that the call leaves, apart from the end mark. -/
theorem finish_listing_records (tree : RoseTree τ) (buf : UserBuf) {i : ℕ}
    (hi : (i : ℤ) < nr → i ≠ tree.size) :
    (finish nr (storeEntries k nr ⟨buf, 0, 0⟩ tree.listing)).records i =
      if (i : ℤ) < nr then
        (tree.listing[i]?.map fun e =>
          (buf.records i).stored (buf.writable i) (record k e)).getD (buf.records i)
      else buf.records i := by
  have hrecords : (storeEntries k nr ⟨buf, 0, 0⟩ tree.listing).buf.records i =
      if (i : ℤ) < nr then
        (tree.listing[i]?.map fun e =>
          (buf.records i).stored (buf.writable i) (record k e)).getD (buf.records i)
      else buf.records i := by
    rw [storeEntries_records tree.listing]
    exact if_congr (and_iff_right (Nat.zero_le i)) rfl rfl
  rw [finish_listing, ← hrecords]
  split
  · exact UserBuf.copyToUser_records_of_ne (by omega)
  · rfl

/-- `ptree` lists the process tree: with a buffer that takes the stores it attempts, it returns 0,
fills the first `*nr` records with those of the listing, and marks the end if there is room. -/
theorem ptree_lists_preorder (P : ProcessTree k) (nr : ℤ) {buf : UserBuf} (hw : buf.Writable nr)
    {fuel : ℕ} (hfuel : P.tree.size ≤ fuel) :
    ∃ out, ptree k fuel (some buf) (some nr) = some (0, some out) ∧
      Listed k P.tree nr buf out := by
  refine ⟨_, ptree_eq P hfuel buf, ?_⟩
  have hlength : P.tree.listing.length = P.tree.size := P.tree.length_listing
  constructor
  · intro i e he hi
    have hlt : i < P.tree.listing.length := (List.getElem?_eq_some_iff.mp he).1
    rw [finish_listing_records P.tree buf (by omega), if_pos hi, he]
    exact Prinfo.stored_eq (fun f => hw i f hi) _ _
  · intro i hi
    have hnone : P.tree.listing[i]? = none := List.getElem?_eq_none (by omega)
    rw [finish_listing_records P.tree buf (by omega), hnone]
    exact ite_self _
  · intro p hp
    have hstores : p ∈ (storeEntries k nr ⟨buf, 0, 0⟩ P.tree.listing).buf.stores →
        p ∈ buf.stores ∨ (p.1 : ℤ) < nr := storeEntries_stores P.tree.listing ⟨buf, 0, 0⟩ p
    rw [finish_listing] at hp
    split at hp
    · next hroom =>
      rcases List.mem_append.mp hp with hp | hp
      · exact hstores hp
      · exact .inr (List.mem_singleton.mp hp ▸ hroom)
    · exact hstores hp
  · intro i hi
    rw [finish_listing_records P.tree buf (by omega), if_neg (by omega)]
  · intro hroom
    have hwritable : (storeEntries k nr ⟨buf, 0, 0⟩ P.tree.listing).buf.writable = buf.writable :=
      storeEntries_writable P.tree.listing ⟨buf, 0, 0⟩
    have hcomm : finishHere.length ≤ buf.writable P.tree.size .comm :=
      Nat.le_trans (by decide) (hw _ .comm hroom)
    rw [finish_listing, if_pos hroom]
    exact UserBuf.prefix_copyToUser (hwritable ▸ hcomm) (by decide)

/-- The links of four tasks: 1 and 3 are the children of 0, and 2 is the child of 1. -/
def fourLinks : Links (Node (Fin 4)) where
  next
    | .children 0 => .sibling 1
    | .sibling 1 => .sibling 3
    | .sibling 3 => .children 0
    | .children 1 => .sibling 2
    | .sibling 2 => .children 1
    | x => x
  prev
    | .children 0 => .sibling 3
    | .sibling 3 => .sibling 1
    | .sibling 1 => .children 0
    | .children 1 => .sibling 2
    | .sibling 2 => .children 1
    | x => x

/-- The first processes of a system: `swapper`, `init`, `ueventd` and `kthreadd`. -/
def fourTasks : Kernel (Fin 4) where
  task
    | 0 => ⟨0, none, 0, 0, ⟨List.replicate 16 115, rfl⟩⟩
    | 1 => ⟨1, some 0, 1, 0, ⟨List.replicate 16 105, rfl⟩⟩
    | 2 => ⟨45, some 1, 1, 0, ⟨List.replicate 16 117, rfl⟩⟩
    | 3 => ⟨2, some 0, 1, 0, ⟨List.replicate 16 107, rfl⟩⟩
  links := fourLinks
  initTask := 0

/-- Their tree. -/
def fourTree : ProcessTree fourTasks where
  tree := .node 0 [.node 1 [.node 2 []], .node 3 []]
  val_eq := rfl
  linked := by
    have ring₀ : Ring fourLinks (.children 0) [.sibling 1, .sibling 3] :=
      ⟨⟨⟨rfl, rfl⟩, ⟨rfl, rfl⟩, rfl, rfl⟩, by decide⟩
    have ring₁ : Ring fourLinks (.children 1) [.sibling 2] :=
      ⟨⟨⟨rfl, rfl⟩, rfl, rfl⟩, by decide⟩
    have ring₂ : Ring fourLinks (.children 2) [] := ⟨⟨rfl, rfl⟩, by decide⟩
    have ring₃ : Ring fourLinks (.children 3) [] := ⟨⟨rfl, rfl⟩, by decide⟩
    simp only [Linked, ForestLinked]
    exact ⟨ring₀, rfl, ⟨ring₁, rfl, ⟨ring₂, trivial⟩, trivial⟩, rfl, ⟨ring₃, trivial⟩, trivial⟩

/-- A buffer of zeros that takes all stores. -/
def zeroBuf : UserBuf where
  records _ := ⟨0, 0, 0, 0, 0, 0, ⟨List.replicate 16 0, rfl⟩, 0⟩
  writable _ _ := 16
  stores := []

/-- The four processes in a buffer with room for five records. -/
theorem ptree_lists_preorder_fourTasks :
    ∃ out, ptree fourTasks 4 (some zeroBuf) (some 5) = some (0, some out) ∧
      Listed fourTasks fourTree.tree 5 zeroBuf out :=
  ptree_lists_preorder fourTree 5 (fun _ f _ => f.bytes_le) (by decide)

end OsProject.Ptree
