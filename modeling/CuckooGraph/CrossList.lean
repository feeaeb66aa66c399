import CuckooGraph.Basic
import CuckooGraph.Linked.Family
import Mathlib.Data.List.Dedup

/-! # Cross lists

The plain adjacency list which the other stores are compared with. Each edge is a
node of two doubly linked lists: that of the edges out of its source, and that of
the edges into its destination.
-/

namespace CuckooGraph

open TwoLayer Linked

/-- `listChain` -/
structure ListChain where
  src : Key
  dst : Key
  pointerSuc : Option Addr
  pointerSucRe : Option Addr
  pointerPre : Option Addr
  pointerPreRe : Option Addr

namespace ListChain

def edge (n : ListChain) : Edge := ⟨n.src, n.dst⟩

abbrev suc : Pointer ListChain := ⟨pointerSuc, fun n p => { n with pointerSuc := p }, fun _ _ => rfl⟩
abbrev sucRe : Pointer ListChain := ⟨pointerSucRe, fun n p => { n with pointerSucRe := p }, fun _ _ => rfl⟩
abbrev pre : Pointer ListChain := ⟨pointerPre, fun n p => { n with pointerPre := p }, fun _ _ => rfl⟩
abbrev preRe : Pointer ListChain := ⟨pointerPreRe, fun n p => { n with pointerPreRe := p }, fun _ _ => rfl⟩

end ListChain

/-- The two maps give a null pointer for a key which they do not have. `fault` says
    that a dead pointer was followed, or a list without an end. -/
structure CrossList where
  crossList : Key → Option Addr
  crossListRev : Key → Option Addr
  heap : Heap ListChain
  fault : Bool

namespace CrossList

section Code

def new : CrossList := ⟨fun _ => none, fun _ => none, Heap.empty, false⟩

def crash (c : CrossList) : CrossList := { c with fault := true }

/-- Follow a list to the first node with the destination of `edge`. `none` if a dead
    node is reached or the list has more than `fuel` nodes. -/
def walk (heap : Heap ListChain) (dst : Key) : Nat → Option Addr → Option (Option Addr)
  | _, none => some none
  | 0, some _ => none
  | fuel + 1, some it =>
      match heap.get it with
      | none => none
      | some n => if n.dst = dst then some (some it) else walk heap dst fuel n.pointerSuc

/-- No list without a loop is longer than the heap. -/
def query (c : CrossList) (list : Option Addr) (dst : Key) : Option (Option Addr) :=
  walk c.heap dst c.heap.objects.length list

def updateList (c : CrossList) (dst : Key) (edge : Addr) : CrossList :=
  match linkFront ListChain.pre ListChain.preRe c.heap (c.crossListRev dst) edge with
  | none => c.crash
  | some heap => { c with heap := heap, crossListRev := Function.update c.crossListRev dst (some edge) }

/-- Both branches of `insertList` which put `edge` in. -/
def link (c : CrossList) (src : Key) (edge : Addr) : CrossList :=
  match linkFront ListChain.suc ListChain.sucRe c.heap (c.crossList src) edge with
  | none => c.crash
  | some heap =>
      match heap.get edge with
      | none => c.crash
      | some n => { c with heap := heap, crossList := Function.update c.crossList src (some edge) }.updateList n.dst edge

def insertList (c : CrossList) (src : Key) (edge : Addr) : CrossList :=
  match c.crossList src with
  | none => c.link src edge
  | some first =>
      match c.heap.get edge with
      | none => c.crash
      | some n =>
          match c.query (some first) n.dst with
          | none => c.crash
          | some (some _) => c
          | some none => c.link src edge

/-- One pass of the loop of `insert_cross`. `new` sets all pointers to null. -/
def insertEdge (c : CrossList) (e : Edge) : CrossList :=
  let (heap, lc) := c.heap.alloc ⟨e.src, e.dst, none, none, none, none⟩
  { c with heap := heap }.insertList e.src lc

/-- `insert_cross`, over `asrc` and `adst`. -/
def insertCross (c : CrossList) (es : List Edge) : CrossList := es.foldl insertEdge c

/-- The inner loop of `build_query`: the edges of a list. -/
def collect (heap : Heap ListChain) : Nat → Option Addr → Option (List Edge)
  | _, none => some []
  | 0, some _ => none
  | fuel + 1, some temp =>
      match heap.get temp with
      | none => none
      | some n => (collect heap fuel n.pointerSuc).map (n.edge :: ·)

/-- The length of `qsrc` and `qdst`. -/
def maxQuery : Nat := 20000000

/-- `build_query`: what comes into `qsrc` and `qdst`, for the keys of `crossList` in the
    order of its iterator. `none` if it writes behind their end. -/
def buildQuery (c : CrossList) (keys : List Key) : Option (List Edge) :=
  ((keys.mapM fun src => collect c.heap c.heap.objects.length (c.crossList src)).map List.flatten).filter
    fun q => q.length ≤ maxQuery

end Code

/-- The edge of a node. -/
def edgeAt (h : Heap ListChain) (a : Addr) : Option Edge := (h.get a).map ListChain.edge

/-- Of the edges inserted, the last one first, those which were new. -/
def firsts (es : List Edge) : List Edge := es.reverse.dedup

/-- Each edge is a node in the list of its source and in that of its destination. -/
structure Holds (c : CrossList) (es : List Edge) (out into : Key → List Addr) : Prop where
  sound : c.fault = false
  suc : Family ListChain.suc ListChain.sucRe c.heap c.crossList out
  pre : Family ListChain.pre ListChain.preRe c.heap c.crossListRev into
  outs : ∀ s, (out s).map (edgeAt c.heap) = (es.filter fun e => e.src = s).map some
  intos : ∀ d, (into d).map (edgeAt c.heap) = (es.filter fun e => e.dst = d).map some
  shared : ∀ a, (∃ s, a ∈ out s) ↔ ∃ d, a ∈ into d

variable {c : CrossList} {es : List Edge} {out into : Key → List Addr} {h : Heap ListChain} {e : Edge} {a : Addr}

theorem holds_new : new.Holds [] (fun _ => []) fun _ => [] :=
  ⟨rfl, .empty, .empty, fun _ => rfl, fun _ => rfl, fun _ => by simp⟩

/-- The first node of a list has the first edge. -/
theorem path_cons {p : Option Addr} {as : List Addr} {l : List Edge} (path : Path ListChain.pointerSuc h p (a :: as))
    (edges : (a :: as).map (edgeAt h) = l.map some) : ∃ n l', p = some a ∧ h.get a = some n ∧ l = n.edge :: l' ∧
      Path ListChain.pointerSuc h n.pointerSuc as ∧ as.map (edgeAt h) = l'.map some := by
  obtain ⟨start, n, live, rest⟩ := path
  cases l with
  | nil => simp at edges
  | cons e l =>
      simp only [List.map_cons, List.cons.injEq, edgeAt, live, Option.map_some, Option.some.injEq] at edges
      exact ⟨n, l, start, live, by rw [edges.1], rest, edges.2⟩

theorem walk_spec {p : Option Addr} {as : List Addr} {fuel : Nat} {l : List Edge} (dst : Key)
    (path : Path ListChain.pointerSuc h p as) (enough : as.length ≤ fuel) (edges : as.map (edgeAt h) = l.map some) :
    ∃ found, walk h dst fuel p = some found ∧ (found.isSome ↔ ∃ e ∈ l, e.dst = dst) ∧
      ∀ a, found = some a → ∃ e ∈ l, edgeAt h a = some e ∧ e.dst = dst := by
  induction as generalizing p fuel l with
  | nil =>
      obtain rfl : p = none := path
      obtain rfl : l = [] := by simpa using edges.symm
      exact ⟨none, by simp [walk], by simp, by simp⟩
  | cons a as ih =>
      obtain ⟨n, l, rfl, live, rfl, rest, edges⟩ := path_cons path edges
      cases fuel with
      | zero => simp at enough
      | succ fuel =>
          by_cases here : n.dst = dst
          · refine ⟨some a, by simp [walk, live, here], by simp [ListChain.edge, here], fun b same => ?_⟩
            obtain rfl := Option.some.inj same
            exact ⟨n.edge, List.mem_cons_self, by rw [edgeAt, live, Option.map_some], here⟩
          · obtain ⟨found, walked, exactly, inside⟩ := ih rest (Nat.le_of_succ_le_succ enough) edges
            refine ⟨found, by simp [walk, live, here, walked], exactly.trans ?_, fun b same => ?_⟩
            · simp [ListChain.edge, here]
            · obtain ⟨e, he, at_b⟩ := inside b same
              exact ⟨e, List.mem_cons_of_mem _ he, at_b⟩

theorem collect_spec {p : Option Addr} {as : List Addr} {fuel : Nat} {l : List Edge}
    (path : Path ListChain.pointerSuc h p as) (enough : as.length ≤ fuel) (edges : as.map (edgeAt h) = l.map some) :
    collect h fuel p = some l := by
  induction as generalizing p fuel l with
  | nil =>
      obtain rfl : p = none := path
      obtain rfl : l = [] := by simpa using edges.symm
      simp [collect]
  | cons a as ih =>
      obtain ⟨n, l, rfl, live, rfl, rest, edges⟩ := path_cons path edges
      cases fuel with
      | zero => simp at enough
      | succ fuel => simp [collect, live, ih rest (Nat.le_of_succ_le_succ enough) edges]

/-- A new edge comes first in its list. -/
theorem edges_update {h' : Heap ListChain} {lists : Key → List Addr} (g : Edge → Key)
    (edges : ∀ s, (lists s).map (edgeAt h) = (es.filter fun e => g e = s).map some) (same : Same ListChain.edge h h')
    (here : edgeAt h a = some e) (s : Key) :
    (Function.update lists (g e) (a :: lists (g e)) s).map (edgeAt h') = ((e :: es).filter fun e => g e = s).map some := by
  have kept : edgeAt h' = edgeAt h := funext same
  rw [kept]
  by_cases mine : s = g e
  · subst mine
    rw [Function.update_self, List.map_cons, here, edges, List.filter_cons_of_pos (by simp), List.map_cons]
  · rw [Function.update_of_ne mine, edges, List.filter_cons_of_neg (by simpa using Ne.symm mine)]

/-- The nodes of all lists, after one has come in. -/
theorem mem_update_cons {lists : Key → List Addr} {s : Key} {b : Addr} :
    (∃ l, b ∈ Function.update lists s (a :: lists s) l) ↔ b = a ∨ ∃ l, b ∈ lists l := by
  constructor
  · rintro ⟨l, hb⟩
    by_cases here : l = s
    · subst here
      rw [Function.update_self] at hb
      exact (List.mem_cons.mp hb).imp_right fun inside => ⟨l, inside⟩
    · rw [Function.update_of_ne here] at hb
      exact .inr ⟨l, hb⟩
  · rintro (rfl | ⟨l, hb⟩)
    · exact ⟨s, by rw [Function.update_self]; exact List.mem_cons_self⟩
    · by_cases here : l = s
      · subst here
        exact ⟨l, by rw [Function.update_self]; exact List.mem_cons_of_mem a hb⟩
      · exact ⟨l, by rwa [Function.update_of_ne here]⟩

namespace Holds

variable (k : c.Holds es out into)
include k

theorem length_le (s : Key) : (out s).length ≤ c.heap.objects.length := (k.suc.path s).length_le

/-- The search for an edge of a source. -/
theorem query (s d : Key) : ∃ found, c.query (c.crossList s) d = some found ∧ (found.isSome ↔ ⟨s, d⟩ ∈ es) ∧
    ∀ a, found = some a → edgeAt c.heap a = some ⟨s, d⟩ := by
  have this : ∀ e : Edge, e ∈ (es.filter fun e => e.src = s) → e.dst = d → e = ⟨s, d⟩ := by
    rintro ⟨src, dst⟩ he rfl
    obtain ⟨-, src_eq⟩ := List.mem_filter.mp he
    simpa using src_eq
  obtain ⟨found, walked, exactly, inside⟩ := walk_spec d (k.suc.path s) (k.length_le s) (k.outs s)
  refine ⟨found, walked, exactly.trans ⟨?_, fun he => ⟨⟨s, d⟩, ?_, rfl⟩⟩, fun a same => ?_⟩
  · rintro ⟨e, he, dst⟩
    exact this e he dst ▸ (List.mem_filter.mp he).1
  · exact List.mem_filter.mpr ⟨he, by simp⟩
  · obtain ⟨e, he, at_a, dst⟩ := inside a same
    rw [at_a, this e he dst]

/-- A node which comes into no list. -/
theorem alloc (n : ListChain) : { c with heap := (c.heap.alloc n).1 }.Holds es out into := by
  have kept : ∀ {as : List Addr}, (∀ a ∈ as, ∃ m, c.heap.get a = some m) →
      as.map (edgeAt (c.heap.alloc n).1) = as.map (edgeAt c.heap) := fun live =>
    List.map_congr_left fun a ha => by
      obtain ⟨m, live⟩ := live a ha
      rw [edgeAt, edgeAt, live, Heap.get_alloc live]
  refine ⟨k.sound, k.suc.alloc n, k.pre.alloc n, fun s => ?_, fun d => ?_, k.shared⟩
  · exact (kept fun a ha => k.suc.live ha).trans (k.outs s)
  · exact (kept fun a ha => k.pre.live ha).trans (k.intos d)

/-- A new edge comes into two lists. -/
theorem link (live : c.heap.get a = some ⟨e.src, e.dst, none, none, none, none⟩) (free : ∀ s, a ∉ out s)
    (free' : ∀ d, a ∉ into d) : (c.link e.src a).Holds (e :: es) (Function.update out e.src (a :: out e.src))
      (Function.update into e.dst (a :: into e.dst)) := by
  obtain ⟨h1, first, suc, same⟩ := k.suc.linkFront (k := e.src) free live rfl rfl (fun _ _ => rfl) fun _ _ => rfl
  have edges : Same ListChain.edge c.heap h1 := same _ (fun _ _ => rfl) fun _ _ => rfl
  have forward : Same ListChain.pointerPre c.heap h1 := same _ (fun _ _ => rfl) fun _ _ => rfl
  have backward : Same ListChain.pointerPreRe c.heap h1 := same _ (fun _ _ => rfl) fun _ _ => rfl
  obtain ⟨n, live1, null⟩ := forward.agrees a _ live
  obtain ⟨n', live1', null'⟩ := backward.agrees a _ live
  obtain rfl := Option.some.inj (live1.symm.trans live1')
  have mine : n.edge = e := by
    have at_a := edges a
    rw [live, live1] at at_a
    exact Option.some.inj at_a
  obtain ⟨h2, second, pre, same'⟩ := (k.pre.same forward backward).linkFront (k := n.dst) free' live1 null null'
    (fun _ _ => rfl) fun _ _ => rfl
  have edges' : Same ListChain.edge h1 h2 := same' _ (fun _ _ => rfl) fun _ _ => rfl
  have linked : c.link e.src a = ⟨Function.update c.crossList e.src (some a),
      Function.update c.crossListRev n.dst (some a), h2, c.fault⟩ := by
    simp only [CrossList.link, first, live1, updateList, second]
  have dst : n.dst = e.dst := congrArg Edge.dst mine
  rw [dst] at linked pre
  have here : edgeAt c.heap a = some e := by rw [edgeAt, live]; rfl
  rw [linked]
  refine ⟨k.sound, suc.same (same' _ (fun _ _ => rfl) fun _ _ => rfl) (same' _ (fun _ _ => rfl) fun _ _ => rfl), pre,
    ?_, ?_, fun b => ?_⟩
  · exact edges_update Edge.src k.outs (edges.trans edges') here
  · exact edges_update Edge.dst k.intos (edges.trans edges') here
  · rw [mem_update_cons, mem_update_cons, k.shared]

theorem insertEdge (e : Edge) : ∃ out into, (c.insertEdge e).Holds (if e ∈ es then es else e :: es) out into := by
  obtain ⟨n, node⟩ : ∃ n : ListChain, n = ⟨e.src, e.dst, none, none, none, none⟩ := ⟨_, rfl⟩
  have start := k.alloc n
  have live : (c.heap.alloc n).1.get (c.heap.alloc n).2 = some n := Heap.get_alloc_self
  have put := start.link (e := e) (node ▸ live) (k.suc.alloc_free n) (k.pre.alloc_free n)
  obtain ⟨found, walked, exactly, -⟩ := start.query e.src e.dst
  have unfolded : c.insertEdge e =
      CrossList.insertList { c with heap := (c.heap.alloc n).1 } e.src (c.heap.alloc n).2 := by rw [node]; rfl
  rw [unfolded, insertList]
  cases head : c.crossList e.src with
  | none =>
      have new : e ∉ es := by
        rw [head] at walked
        obtain rfl : found = none := by simpa [CrossList.query, walk] using walked.symm
        exact fun inside => by simpa using exactly.mpr inside
      rw [if_neg new]
      exact ⟨_, _, put⟩
  | some first =>
      have dst : n.dst = e.dst := by rw [node]
      rw [head] at walked
      simp only [live, dst, walked]
      cases found with
      | none =>
          have new : e ∉ es := fun inside => by simpa using exactly.mpr inside
          rw [if_neg new]
          exact ⟨_, _, put⟩
      | some b =>
          have old : e ∈ es := exactly.mp rfl
          rw [if_pos old]
          exact ⟨out, into, start⟩

theorem buildQuery {keys : List Key} (few : (keys.flatMap fun s => es.filter fun e => e.src = s).length ≤ maxQuery) :
    c.buildQuery keys = some (keys.flatMap fun s => es.filter fun e => e.src = s) := by
  have lists : (fun s => collect c.heap c.heap.objects.length (c.crossList s)) =
      fun s => pure (es.filter fun e => e.src = s) :=
    funext fun s => collect_spec (k.suc.path s) (k.length_le s) (k.outs s)
  rw [CrossList.buildQuery, lists, List.mapM_pure]
  exact Option.filter_some_pos (decide_eq_true few)

/-- The sources in the map are those of edges. -/
theorem head_edge {s : Key} (head : c.crossList s ≠ none) : ∃ e ∈ es, e.src = s := by
  obtain ⟨a, here⟩ := Option.ne_none_iff_exists'.mp head
  obtain ⟨rest, list⟩ := k.suc.head_cons here
  have edges := k.outs s
  cases mine : es.filter fun e => e.src = s with
  | nil => simp [list, mine] at edges
  | cons e l =>
      have he : e ∈ es.filter fun e => e.src = s := mine ▸ List.mem_cons_self
      exact ⟨e, (List.mem_filter.mp he).1, by simpa using (List.mem_filter.mp he).2⟩

theorem head_known (he : e ∈ es) : c.crossList e.src ≠ none := by
  intro head
  have edges := k.outs e.src
  rw [k.suc.head_nil head] at edges
  have empty : es.filter (fun e' => e'.src = e.src) = [] := by simpa using edges.symm
  exact List.filter_eq_nil_iff.mp empty e he (by simp)

end Holds

theorem firsts_append (es : List Edge) (e : Edge) :
    firsts (es ++ [e]) = if e ∈ firsts es then firsts es else e :: firsts es := by
  rw [firsts, List.reverse_append, List.reverse_singleton, List.singleton_append]
  split
  · rename_i inside
    exact List.dedup_cons_of_mem (List.mem_dedup.mp inside)
  · rename_i new
    exact List.dedup_cons_of_notMem fun inside => new (List.mem_dedup.mpr inside)

theorem holds_insertCross (es : List Edge) : ∃ out into, (new.insertCross es).Holds (firsts es) out into := by
  induction es using List.reverseRecOn with
  | nil => exact ⟨_, _, holds_new⟩
  | append_singleton es e ih =>
      obtain ⟨out, into, k⟩ := ih
      rw [insertCross, List.foldl_append, firsts_append]
      exact k.insertEdge e

/-- After any insertions each source has a proper list of the edges out of it, and each
    destination one of the edges into it: each edge once, the last new one first, in
    a node which is in both lists. -/
theorem insertCross_lists (es : List Edge) : ∃ out into, (new.insertCross es).Holds (firsts es) out into ∧
    (firsts es).Nodup ∧ ∀ e, e ∈ firsts es ↔ e ∈ es := by
  obtain ⟨out, into, k⟩ := holds_insertCross es
  exact ⟨out, into, k, List.nodup_dedup _, fun e => by rw [firsts, List.mem_dedup, List.mem_reverse]⟩

/-- A search finds what was inserted, and `build_query` lists it, each edge once, in
    whatever order the iterator takes the sources, if the arrays are long enough. -/
theorem buildQuery_exact (es : List Edge) (few : (firsts es).length ≤ maxQuery) (keys : List Key) (nodup : keys.Nodup)
    (all : ∀ s, (new.insertCross es).crossList s ≠ none → s ∈ keys) :
    let c := new.insertCross es
    (∀ e, ∃ found, c.query (c.crossList e.src) e.dst = some found ∧ (found.isSome ↔ e ∈ es)) ∧
      ∃ q, c.buildQuery keys = some q ∧ q.Nodup ∧ ∀ e, e ∈ q ↔ e ∈ es := by
  intro c
  obtain ⟨out, into, k⟩ := holds_insertCross es
  have same : ∀ e, e ∈ firsts es ↔ e ∈ es := fun e => by rw [firsts, List.mem_dedup, List.mem_reverse]
  obtain ⟨q, listed⟩ : ∃ q, q = keys.flatMap fun s => (firsts es).filter fun e => e.src = s := ⟨_, rfl⟩
  have once : q.Nodup := by
    rw [listed, List.nodup_flatMap]
    refine ⟨fun s _ => (List.nodup_dedup _).filter _, nodup.imp fun {s t} other => ?_⟩
    intro e hs ht
    simp only [List.mem_filter, decide_eq_true_eq] at hs ht
    exact other (hs.2.symm.trans ht.2)
  have members : ∀ e, e ∈ q ↔ e ∈ firsts es := by
    intro e
    simp only [listed, List.mem_flatMap, List.mem_filter, decide_eq_true_eq]
    constructor
    · rintro ⟨s, -, he, -⟩
      exact he
    · exact fun he => ⟨e.src, all e.src (k.head_known he), he, rfl⟩
  -- the arrays take the edges, as there are no more than have been new
  have length := ((List.perm_ext_iff_of_nodup once (List.nodup_dedup _)).mpr members).length_eq
  refine ⟨fun e => ?_, q, ?_, once, fun e => (members e).trans (same e)⟩
  · obtain ⟨found, walked, exactly, -⟩ := k.query e.src e.dst
    exact ⟨found, walked, exactly.trans (same e)⟩
  · rw [listed] at length ⊢
    exact k.buildQuery (length.trans_le few)

theorem buildQuery_exact_two : ∃ q, (new.insertCross [⟨1, 2⟩, ⟨1, 3⟩, ⟨1, 2⟩]).buildQuery [1] = some q ∧ q.Nodup ∧
    ∀ e, e ∈ q ↔ e ∈ [⟨1, 2⟩, ⟨1, 3⟩, ⟨1, 2⟩] :=
  (buildQuery_exact [⟨1, 2⟩, ⟨1, 3⟩, ⟨1, 2⟩] (by decide) [1] (by decide) fun s head => by
    obtain ⟨out, into, k⟩ := holds_insertCross [⟨1, 2⟩, ⟨1, 3⟩, ⟨1, 2⟩]
    obtain ⟨e, he, rfl⟩ := k.head_edge head
    simp only [firsts, List.mem_dedup, List.mem_reverse, List.mem_cons, List.not_mem_nil, or_false] at he
    rcases he with rfl | rfl | rfl <;> exact List.mem_singleton.mpr rfl).2

end CrossList

end CuckooGraph
