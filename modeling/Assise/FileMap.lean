import Assise.ExtentsRemove
import Assise.Lib.Runs

-- The extent tree of a file as a finite map from file blocks to disk blocks.
namespace Assise.FileMap

open Balloc Extents Lib.Spans Lib.Runs List
open Option hiding or_assoc

abbrev BlockMap := Nat → Option Nat

def extend (map : BlockMap) (first count disk : Nat) : BlockMap := fun b =>
  if first ≤ b ∧ b < first + count then some (disk + (b - first)) else map b

def punch (map : BlockMap) (start stop : Nat) : BlockMap := fun b =>
  if start ≤ b ∧ b ≤ stop then none else map b

def covers (b : Nat) (e : Extent) : Bool := decide (e.eeBlock ≤ b ∧ b < e.eeBlock + e.eeLen)

def blockMap (es : List Extent) : BlockMap := fun b =>
  (es.find? (covers b)).map fun e => e.eeStart + (b - e.eeBlock)

def Maps (es : List Extent) (b p : Nat) : Prop := ∃ e ∈ es, covers b e = true ∧ p = e.eeStart + (b - e.eeBlock)

variable {e newext ex : Extent} {b p : Nat} {right left es : List Extent} {root : ExtRoot}

theorem covers_iff : covers b e = true ↔ e.eeBlock ≤ b ∧ b < e.eeBlock + e.eeLen := by
  simp [covers]

theorem Maps.append :
    Maps (left ++ right) b p ↔ Maps left b p ∨ Maps right b p := by
  simp only [Maps,mem_append,or_and_right,exists_or]

theorem Maps.cons {rest : List Extent} :
    Maps (e :: rest) b p ↔ covers b e = true ∧ p = e.eeStart + (b - e.eeBlock) ∨ Maps rest b p := by
  simp [Maps]

theorem Maps.insert :
    Maps (left ++ e :: right) b p ↔ Maps (left ++ right) b p ∨ Maps [e] b p := by
  have none : ¬ Maps [] b p := by simp [Maps]
  rw [Maps.append,Maps.append,Maps.cons,Maps.cons,or_iff_left none,or_assoc,or_comm (a:=Maps right b p)]

theorem Maps.single :
    Maps [e] b p ↔ (e.eeBlock ≤ b ∧ b < e.eeBlock + e.eeLen) ∧ p = e.eeStart + (b - e.eeBlock) := by
  simp [Maps,covers_iff]

theorem covers_unique {es : List Extent} (order : InOrder es) {f : Extent} (first : e ∈ es)
    (second : f ∈ es) (here : covers b e = true) (there : covers b f = true) : e = f := by
  rw [covers_iff] at here there
  obtain ⟨i,boundI,rfl⟩ := getElem_of_mem first
  obtain ⟨j,boundJ,rfl⟩ := getElem_of_mem second
  rcases Nat.lt_trichotomy i j with less | rfl | more
  · have apart : Before es[i] es[j] := pairwise_iff_getElem.mp order.sorted i j boundI boundJ less
    unfold Before at apart
    omega
  · rfl
  · have apart : Before es[j] es[i] := pairwise_iff_getElem.mp order.sorted j i boundJ boundI more
    unfold Before at apart
    omega

theorem blockMap_eq_some (order : InOrder es) :
    blockMap es b = some p ↔ Maps es b p := by
  unfold blockMap
  constructor
  · intro found
    obtain ⟨e,at_,rfl⟩ := map_eq_some_iff.mp found
    exact ⟨e,mem_of_find?_eq_some at_,find?_some at_,rfl⟩
  · rintro ⟨e,member,here,rfl⟩
    cases at_ : es.find? (covers b) with
    | none => exact absurd here (find?_eq_none.mp at_ e member)
    | some f =>
      cases covers_unique order member (mem_of_find?_eq_some at_) here (find?_some at_)
      rfl

theorem blockMap_eq_none : blockMap es b = none ↔ ∀ e ∈ es, covers b e = false := by
  simp [blockMap]

theorem blockMap_ext (order : InOrder es) {map : BlockMap}
    (same : ∀ b p, Maps es b p ↔ map b = some p) : blockMap es = map := by
  funext b
  refine Option.ext fun p => ?_
  rw [blockMap_eq_some order,same]

theorem mergeStep_maps {x y : List Extent} (step : MergeStep x y) : Maps y b p ↔ Maps x b p := by
  cases step with
  | join front e f back can =>
    obtain ⟨adjacent,_,start⟩ := canMerge_parts can
    simp only [Maps.append,Maps.cons,covers_iff]
    refine or_congr_right ?_
    rw [←or_assoc]
    refine or_congr_left ?_
    constructor
    · rintro ⟨inside,rfl⟩
      by_cases first : b < e.eeBlock + e.eeLen
      · exact Or.inl ⟨⟨inside.1,first⟩,rfl⟩
      · exact Or.inr ⟨by omega,by omega⟩
    · rintro (⟨inside,rfl⟩ | ⟨inside,rfl⟩)
      · exact ⟨by omega,rfl⟩
      · exact ⟨by omega,by omega⟩

theorem merges_maps {x y : List Extent} (merges : Merges x y) : Maps y b p ↔ Maps x b p := by
  induction merges with
  | refl => exact Iff.rfl
  | tail _ step ih => rw [mergeStep_maps step,ih]

theorem inserted_maps {es' : List Extent} {preIo : Bool} (inserted : Inserted es newext preIo es') : Maps es' b p ↔ Maps es b p ∨ Maps [newext] b p := by
  obtain ⟨left,right,rfl,merged,_⟩ := inserted
  rw [merges_maps merged,Maps.insert]

theorem trim_covers {start stop : Nat} (clear : Clear stop e) :
    (∃ e', trim start stop e = some e' ∧ covers b e' = true ∧ p = e'.eeStart + (b - e'.eeBlock)) ↔
      (covers b e = true ∧ p = e.eeStart + (b - e.eeBlock)) ∧ ¬ (start ≤ b ∧ b ≤ stop) := by
  unfold Clear at clear
  simp only [covers_iff]
  unfold trim
  by_cases outside : e.eeBlock + e.eeLen ≤ start ∨ stop < e.eeBlock
  · simp only [if_pos outside,Option.some.injEq]
    constructor
    · rintro ⟨e',rfl,inside,rfl⟩
      exact ⟨⟨inside,rfl⟩,by omega⟩
    · rintro ⟨⟨inside,rfl⟩,_⟩
      exact ⟨e,rfl,inside,rfl⟩
  · rw [if_neg outside]
    by_cases part : e.eeBlock < start
    · simp only [if_pos part,Option.some.injEq]
      constructor
      · rintro ⟨e',rfl,inside,rfl⟩
        simp only at inside
        exact ⟨⟨by omega,rfl⟩,by omega⟩
      · rintro ⟨⟨inside,rfl⟩,_⟩
        exact ⟨_,rfl,by simp only; omega,rfl⟩
    · simp only [if_neg part]
      constructor
      · rintro ⟨e',none,_⟩
        cases none
      · rintro ⟨⟨inside,_⟩,notIn⟩
        exact absurd (by omega) notIn

theorem trim_maps {start stop : Nat} (clear : ∀ e ∈ es, Clear stop e) :
    Maps (es.filterMap (trim start stop)) b p ↔ Maps es b p ∧ ¬ (start ≤ b ∧ b ≤ stop) := by
  constructor
  · rintro ⟨e',member,here,same⟩
    obtain ⟨e,inside,left⟩ := mem_filterMap.mp member
    obtain ⟨⟨there,same'⟩,notIn⟩ := (trim_covers (clear e inside)).mp ⟨e',left,here,same⟩
    exact ⟨⟨e,inside,there,same'⟩,notIn⟩
  · rintro ⟨⟨e,inside,here,same⟩,notIn⟩
    obtain ⟨e',left,there,same'⟩ := (trim_covers (clear e inside)).mpr ⟨⟨here,same⟩,notIn⟩
    exact ⟨e',mem_filterMap.mpr ⟨e,inside,left⟩,there,same'⟩

theorem cut_maps {stop : Nat} (low : ex.eeBlock ≤ stop) (high : stop < ex.eeBlock + ex.eeLen - 1) : Maps [frontPart ex stop] b p ∨ Maps [backPart ex stop] b p ↔ Maps [ex] b p := by
  simp only [Maps,mem_singleton,exists_eq_left,covers_iff,frontPart,backPart]
  constructor
  · rintro (⟨inside,rfl⟩ | ⟨inside,rfl⟩)
    · exact ⟨by omega,rfl⟩
    · exact ⟨by omega,by omega⟩
  · rintro ⟨inside,rfl⟩
    by_cases front : b ≤ stop
    · exact Or.inl ⟨by omega,rfl⟩
    · exact Or.inr ⟨by omega,by omega⟩

theorem split_maps {stop : Nat} {before after front rest : List Extent} (low : ex.eeBlock ≤ stop)
    (high : stop < ex.eeBlock + ex.eeLen - 1) (others : before ++ after = front ++ frontPart ex stop :: rest)
    (b p : Nat) : Maps (before ++ backPart ex stop :: after) b p ↔ Maps (front ++ ex :: rest) b p := by
  rw [Maps.insert,others,Maps.insert,or_assoc,cut_maps low high,←Maps.insert]

structure File where
  sb : SuperBlock
  root : ExtRoot

def File.map (f : File) : BlockMap := blockMap (extents f.root.node)
def File.blocks (f : File) : Multiset Nat := extentBlocks (extents f.root.node) + nodes f.root.node

-- `held` are the blocks of other files. Device blocks start behind the super block, the inodes and the bitmap.
structure Consistent (held : Multiset Nat) (f : File) : Prop where
  tree : TreeOk f.root
  device : Working f.sb (held + f.blocks)
  layout : mlfsExtSpaceRoot < f.sb.reservedBlocks

theorem Consistent.nodes_large {held : Multiset Nat} {f : File} (consistent : Consistent held f) :
    ∀ b ∈ nodes f.root.node, mlfsExtSpaceRoot < b := by
  intro b member
  have inside : b ∈ held + f.blocks := by simp [File.blocks,member]
  exact consistent.layout.trans_le (consistent.device.mem.mp (Or.inr inside)).1

theorem TreeOk.empty (ok : TreeOk root) (none : extents root.node = []) :
    root = ⟨0,leafNode []⟩ := by
  rcases ok.shape with same | ⟨key,node,exact⟩
  · exact same
  · exact absurd none (node.extents_ne exact)

theorem located_early {key block : Nat} {c : Cursor root.ehDepth} (at_ : Located root block c key left ex right)
    (order : InOrder (extents root.node)) (early : e ∈ extentsBefore c.path ++ left) : e.eeBlock + e.eeLen ≤ block := by
  have near : ex.eeBlock ≤ block := at_.low.resolve_left (ne_nil_of_mem early)
  have ahead : Before e ex := (at_.listing ▸ order).parts.2.2 e early ex (by simp)
  unfold Before at ahead
  omega

section Truncate
variable {f : File} {held : Multiset Nat} {start stop : Nat}

variable {key : Nat} {sb : SuperBlock} {c : Cursor root.ehDepth}

theorem clear_of_located {right : List Extent} (order : InOrder (extents root.node)) (at_ : Located root stop c key left ex right)
    (whole : ¬ (ex.eeBlock ≤ stop ∧ stop < ex.eeBlock + ex.eeLen - 1)) : ∀ e ∈ extents root.node, Clear stop e := by
  intro e member
  rcases mem_append.mp (at_.listing ▸ member) with early | late
  · have ends := located_early at_ order early
    exact Or.inr (by omega)
  · rcases mem_cons.mp late with rfl | later
    · unfold Clear
      omega
    · exact Or.inl (at_.high e later)

theorem truncate_ok (consistent : Consistent held f) (bound : stop < extMaxBlocks - 1)
    (go : Proceeds (f.map (stop + 1) = none ∨ f.root.ehDepth + 2 < f.sb.free.card) (mlfsExtTruncate f.root start stop f.sb)) :
    ∃ root sb, mlfsExtTruncate f.root start stop f.sb = some (root,sb) ∧ TreeOk root ∧
      blockMap (extents root.node) = punch f.map start stop := by
  have treeOk := consistent.tree
  have order := treeOk.order
  -- The map follows once the extents are known to be the trimmed ones of an equal map.
  have result : ∀ {root : ExtRoot} {es : List Extent}, TreeOk root → (∀ e ∈ es, Clear stop e) →
      (∀ b p, Maps es b p ↔ Maps (extents f.root.node) b p) →
      extents root.node = es.filterMap (trim start stop) →
      blockMap (extents root.node) = punch f.map start stop := by
    intro root es ok clear same trimmed
    refine blockMap_ext ok.order fun b p => ?_
    rw [trimmed,trim_maps clear,same,punch]
    split
    · rename_i gone
      simp [gone]
    · rename_i kept
      rw [File.map,blockMap_eq_some order]
      exact and_iff_left kept
  unfold mlfsExtTruncate mlfsExtRemoveSpace at go ⊢
  rw [if_neg (by omega)] at go ⊢
  by_cases empty : extents f.root.node = []
  · obtain ⟨sb,root⟩ := f
    cases TreeOk.empty treeOk empty
    exact ⟨⟨0,leafNode []⟩,sb,rfl,treeOk,
      result treeOk (fun e member => by cases member) (fun b p => Iff.rfl) rfl⟩
  · obtain ⟨c,key,left,ex,right,walk,at_⟩ := treeOk.located empty stop
    have here := at_.here
    have member := at_.member
    have positive := (order.valid ex member).positive
    simp only [walk,at_.place,here,bind_eq_bind,bind_some] at go ⊢
    rw [if_neg (by omega)] at go ⊢
    by_cases straddles : ex.eeBlock ≤ stop ∧ stop < ex.eeBlock + ex.eeLen - 1
    · rw [if_pos straddles] at go ⊢
      obtain ⟨low,high⟩ := straddles
      have shape := at_.listing
      have device : Working f.sb (held + extentBlocks (extents f.root.node) + nodes f.root.node) := by
        have whole := consistent.device
        rwa [File.blocks,←add_assoc] at whole
      obtain ⟨root₁,place,sb₁,split,ok₁,near,notFar,before,after,parts,others⟩ :=
        forceSplit_ok treeOk at_ low high device (go.of_imp
          (fun either => either.resolve_left fun unmapped => by
            have inside := blockMap_eq_none.mp unmapped ex member
            simp only [covers,decide_eq_false_iff_not] at inside
            omega)
          fun none => by simp [none])
      have moves : Moves .grow ⟨f.sb,held + extentBlocks (extents f.root.node),0 + nodes f.root.node⟩
          ⟨sb₁,held + extentBlocks (extents f.root.node),0 + nodes root₁.node⟩ ∧ _ :=
        forceSplit_moves at_.on here (by omega) (by omega) split
      obtain ⟨moves,sameBlocks⟩ := moves
      rw [zero_add,zero_add] at moves
      have device₁ : Working sb₁ (held + (extentBlocks (extents root₁.node) + nodes root₁.node)) := by
        rw [sameBlocks,←add_assoc]
        exact moves.working device
      have large₁ : ∀ b ∈ nodes root₁.node, mlfsExtSpaceRoot < b := by
        intro b member
        have inside : b ∈ held + (extentBlocks (extents root₁.node) + nodes root₁.node) := by simp [member]
        have reserved : sb₁.reservedBlocks = f.sb.reservedBlocks := (moves.device device).2.2
        have bound := (device₁.mem.mp (Or.inr inside)).1
        rw [reserved] at bound
        exact consistent.layout.trans_le bound
      have same : ∀ b p, Maps (extents root₁.node) b p ↔ Maps (extents f.root.node) b p := by
        rw [parts,shape]
        exact split_maps low high others
      have clear : ∀ e ∈ extents root₁.node, Clear stop e := by
        rw [parts]
        intro e member
        rw [shape] at order
        have cases : e ∈ before ++ after ∨ e = backPart ex stop := by
          rcases mem_append.mp member with early | late
          · exact Or.inl (mem_append_left _ early)
          · exact (mem_cons.mp late).symm.imp_left (mem_append_right _)
        rcases cases with old | rfl
        · rw [others] at old
          rcases mem_append.mp old with early | late
          · have ahead : Before e ex := order.parts.2.2 e early ex (by simp)
            unfold Before at ahead
            exact Or.inr (by omega)
          · rcases mem_cons.mp late with rfl | later
            · refine Or.inr ?_
              simp only [frontPart]
              omega
            · exact Or.inl (at_.high e later)
        · exact Or.inl (Nat.lt_succ_self stop)
      obtain ⟨c₁,key₁,left₁,ex₁,right₁,walk₁,at₁⟩ := ok₁.located (by rw [parts]; simp) place
      obtain ⟨root,sb,done,ok,trimmed⟩ := removeFrom_ok ok₁ at₁ near notFar clear large₁ device₁
      refine ⟨root,sb,?_,ok,result ok clear same trimmed⟩
      simp only [split,walk₁,bind_some,done]
    · rw [if_neg straddles]
      have clear := clear_of_located order at_ straddles
      obtain ⟨root,sb,done,ok,trimmed⟩ := removeFrom_ok treeOk at_ (le_refl _) (Nat.le_succ _) clear
        consistent.nodes_large consistent.device
      exact ⟨root,sb,done,ok,result ok clear (fun b p => Iff.rfl) trimmed⟩

theorem Consistent.truncate_moves (consistent : Consistent held f)
    (done : mlfsExtTruncate f.root start stop f.sb = some (root,sb)) :
    Account.Working ⟨f.sb,held + extentBlocks (extents f.root.node),0 + nodes f.root.node⟩ ∧ ∃ middle,
      Moves .grow ⟨f.sb,held + extentBlocks (extents f.root.node),0 + nodes f.root.node⟩ middle ∧
      Moves .shrink middle ⟨sb,held + extentBlocks (extents root.node),0 + nodes root.node⟩ := by
  have whole := consistent.device
  rw [File.blocks,←add_assoc,←zero_add (nodes f.root.node)] at whole
  exact ⟨whole,extTruncate_moves done⟩

theorem Consistent.truncated (consistent : Consistent held f)
    (done : mlfsExtTruncate f.root start stop f.sb = some (root,sb)) (ok : TreeOk root) : Consistent held ⟨sb,root⟩ := by
  obtain ⟨device,middle,cut,returned⟩ := consistent.truncate_moves done
  have device₁ := cut.working device
  have after : Working sb _ := returned.working device₁
  refine ⟨ok,?_,?_⟩
  · rwa [File.blocks,←add_assoc,←zero_add (nodes root.node)]
  · have reserved : sb.reservedBlocks = f.sb.reservedBlocks :=
      (returned.device device₁).2.2.trans (cut.device device).2.2
    simp only [reserved]
    exact consistent.layout

end Truncate

section Create
variable {f : File} {held : Multiset Nat} {mLblk mLen : Nat}

variable {key : Nat} {sb : SuperBlock} {c : Cursor root.ehDepth}

theorem located_maps
    (order : InOrder (extents root.node)) (at_ : Located root mLblk c key left ex right) :
    ∀ e ∈ extents root.node, covers mLblk e = true → e = ex := by
  intro e member here
  rw [covers_iff] at here
  rcases mem_append.mp (at_.listing ▸ member) with early | late
  · have ends := located_early at_ order early
    omega
  · rcases mem_cons.mp late with rfl | later
    · rfl
    · have bound := at_.high e later
      omega

structure Hit (map : BlockMap) (mLblk mLen : Nat) (result : MapResult) : Prop where
  positive : 0 < result.ret
  most : result.ret ≤ mLen
  agrees : ∀ i < result.ret, map (mLblk + i) = some (result.mPblk + i)

theorem hit_of_covers (order : InOrder es) (member : ex ∈ es)
    (here : covers mLblk ex = true) (asked : 0 < mLen) :
    Hit (blockMap es) mLblk mLen ⟨min (ex.eeLen + ex.eeBlock - mLblk) mLen,mLblk - ex.eeBlock + ex.eeStart,
      min (ex.eeLen + ex.eeBlock - mLblk) mLen⟩ := by
  rw [covers_iff] at here
  refine ⟨by simp only; omega,by simp only; omega,fun i bound => ?_⟩
  simp only at bound
  rw [blockMap_eq_some order]
  exact ⟨ex,member,covers_iff.mpr (by omega),by simp only; omega⟩

structure Fresh (before : BlockMap) (free : Multiset Nat) (mLblk mLen : Nat) (result : MapResult) (after : BlockMap) :
    Prop where
  positive : 0 < result.ret
  most : result.ret ≤ mLen
  unmapped : ∀ i < result.ret, before (mLblk + i) = none
  free : ∀ i < result.ret, result.mPblk + i ∈ free
  extended : after = extend before mLblk result.ret result.mPblk

structure Planned (f : File) (held : Multiset Nat) (newext : Extent) (sb : SuperBlock) : Prop where
  valid : newext.Valid
  apart : ∀ e ∈ extents f.root.node, Apart e newext
  device : Working sb (held + f.blocks + span newext.eeStart newext.eeLen)
  taken : Taken f.sb sb newext.eeStart newext.eeLen

theorem Planned.fresh {sb : SuperBlock} (consistent : Consistent held f)
    (planned : Planned f held newext sb) (order : InOrder es)
    (inserted : Inserted (extents f.root.node) newext false es) (most : newext.eeLen ≤ mLen) :
    Fresh f.map f.sb.free newext.eeBlock mLen ⟨newext.eeLen,newext.eeStart,newext.eeLen⟩ (blockMap es) := by
  have old := consistent.tree.order
  have unmapped : ∀ i < newext.eeLen, f.map (newext.eeBlock + i) = none := by
    intro i bound
    refine blockMap_eq_none.mpr fun e member => ?_
    rw [covers]
    refine decide_eq_false fun here => ?_
    rcases planned.apart e member with before | behind
    · unfold Before at before
      omega
    · unfold Before at behind
      omega
  refine ⟨planned.valid.positive,most,unmapped,fun i bound => ?_,?_⟩
  · rw [planned.taken.free,Multiset.mem_add,mem_span]
    simp only at bound ⊢
    exact Or.inr (by omega)
  · refine blockMap_ext order fun b p => ?_
    rw [inserted_maps inserted,←blockMap_eq_some old,Maps.single,extend]
    change f.map b = some p ∨ _ ↔ _
    split
    · rename_i here
      simp only at here
      have gap := unmapped (b - newext.eeBlock) (by omega)
      rw [Nat.add_sub_cancel' here.1] at gap
      simp [gap,here,eq_comm]
    · rename_i outside
      simp only at outside
      simp [outside]

theorem Planned.inserted {c : Cursor f.root.ehDepth}
    (consistent : Consistent held f) (planned : Planned f held newext sb)
    (found : mlfsFindExtent f.root newext.eeBlock = some c)
    (go : Proceeds (f.root.ehDepth + 2 < sb.free.card) (mlfsExtInsertExtent f.root c newext false sb)) :
    ∃ root sb', mlfsExtInsertExtent f.root c newext false sb = some (root,sb') ∧ Consistent held ⟨sb',root⟩ ∧
      Inserted (extents f.root.node) newext false (extents root.node) := by
  have treeOk := consistent.tree
  have device : Working sb (held + extentBlocks (extents f.root.node) + span newext.eeStart newext.eeLen +
      nodes f.root.node) := by
    have whole := planned.device
    rw [File.blocks,←add_assoc,add_right_comm] at whole
    exact whole
  obtain ⟨root,sb',done,ok,inserted⟩ : ∃ root sb', mlfsExtInsertExtent f.root c newext false sb = some (root,sb') ∧
      TreeOk root ∧ Inserted (extents f.root.node) newext false (extents root.node) := by
    by_cases empty : extents f.root.node = []
    · obtain ⟨sb₀,root⟩ := f
      cases TreeOk.empty treeOk empty
      obtain ⟨sb',done,ok⟩ := insertFirst_ok found planned.valid
      exact ⟨_,sb',done,ok,[],[],rfl,.refl,by simp⟩
    · obtain ⟨c',key,left,ex,right,walk,at_⟩ := treeOk.located empty newext.eeBlock
      cases found.symm.trans walk
      exact insertExtent_ok false treeOk at_ planned.valid planned.apart device go
  have moves : Moves .grow ⟨sb,held + extentBlocks (extents f.root.node) + span newext.eeStart newext.eeLen,
      0 + nodes f.root.node⟩ ⟨sb',_,0 + nodes root.node⟩ ∧ _ := insertExtent_blocks (findExtent_on found) done
  obtain ⟨moves,blocks⟩ := moves
  rw [zero_add,zero_add] at moves
  refine ⟨root,sb',done,⟨ok,?_,?_⟩,inserted⟩
  · have after : Working sb' _ := moves.working device
    simp only [File.blocks,blocks]
    rwa [←add_assoc,←add_assoc]
  · have reserved : sb'.reservedBlocks = f.sb.reservedBlocks :=
      (moves.device device).2.2.trans planned.taken.device.2.2
    simp only [reserved]
    exact consistent.layout

def allocateAndInsert (root : ExtRoot) (sb : SuperBlock) (mLblk allocated : Nat) (c : Cursor root.ehDepth) :
    Option (MapResult × ExtRoot × SuperBlock) :=
  (mlfsExtAllocBlocks sb .data allocated).bind fun r =>
    (mlfsExtInsertExtent root c ⟨mLblk,allocated,r.1⟩ false r.2).bind fun s => some (⟨allocated,r.1,allocated⟩,s.1,s.2)

theorem allocateAndInsert_none {mLblk allocated : Nat}
    (fails : ((mlfsExtAllocBlocks sb .data allocated).bind fun r =>
      mlfsExtInsertExtent root c ⟨mLblk,allocated,r.1⟩ false r.2) = none) :
    allocateAndInsert root sb mLblk allocated c = none := by
  rw [allocateAndInsert]
  cases alloc : mlfsExtAllocBlocks sb .data allocated with
  | none => rfl
  | some r =>
    rw [alloc,bind_some] at fails
    rw [bind_some,fails,bind_none]

theorem create_planned {c : Cursor f.root.ehDepth} (allocated : Nat) (consistent : Consistent held f)
    (found : mlfsFindExtent f.root mLblk = some c) (asked : 0 < allocated) (most : allocated ≤ mLen)
    (short : mLen ≤ extInitMaxLen) (inside : mLblk + allocated ≤ extMaxBlocks)
    (apart : ∀ newblock, ∀ e ∈ extents f.root.node, Apart e ⟨mLblk,allocated,newblock⟩)
    (go : Proceeds (Room f.sb .data mLen ∧ f.root.ehDepth + 2 + mLen < f.sb.free.card)
      ((mlfsExtAllocBlocks f.sb .data allocated).bind fun r =>
        mlfsExtInsertExtent f.root c ⟨mLblk,allocated,r.1⟩ false r.2)) :
    ∃ newblock sb₁ root sb, mlfsExtAllocBlocks f.sb .data allocated = some (newblock,sb₁) ∧
      mlfsExtInsertExtent f.root c ⟨mLblk,allocated,newblock⟩ false sb₁ = some (root,sb) ∧
      Consistent held ⟨sb,root⟩ ∧
      Fresh f.map f.sb.free mLblk mLen ⟨allocated,newblock,allocated⟩ (blockMap (extents root.node)) := by
  have single : AllocType.data = .tree → allocated = 1 := fun same => by cases same
  have room : Room f.sb .data allocated := by
    rcases go with ⟨⟨enough,fits⟩,_⟩ | returned
    · obtain ⟨list,lists,n,member,large⟩ := fits.resolve_left (by simp)
      exact ⟨by omega,Or.inr ⟨list,lists,n,member,by omega⟩⟩
    · obtain ⟨_,done⟩ := isSome_iff_exists.mp returned
      obtain ⟨_,alloc,_⟩ := bind_eq_some_iff.mp done
      exact consistent.device.room_of_alloc alloc
  obtain ⟨newblock,sb₁,alloc,device⟩ := consistent.device.alloc (Nat.ne_of_gt asked) single room
  have taken := consistent.device.take_alloc single alloc
  have card := congrArg Multiset.card taken.free
  rw [Multiset.card_add,card_span] at card
  have planned : Planned f held ⟨mLblk,allocated,newblock⟩ sb₁ :=
    ⟨⟨asked,most.trans short,inside⟩,apart newblock,device,taken⟩
  rw [alloc,bind_some] at go
  obtain ⟨root,sb,done,after,inserted⟩ := planned.inserted consistent found (go.of_imp (by omega) id)
  exact ⟨newblock,sb₁,root,sb,alloc,done,after,planned.fresh consistent after.tree.order inserted most⟩

def ReachesNoLaterBlock (map : BlockMap) (mLblk mLen : Nat) : Prop :=
  (∃ b ≤ mLblk, map b ≠ none) ∨ ∀ i < mLen, map (mLblk + i) = none

theorem create_apart {c : Cursor f.root.ehDepth} {right : List Extent}
    (order : InOrder (extents f.root.node)) (at_ : Located f.root mLblk c key left ex right)
    (miss : covers mLblk ex = false) (reach : ReachesNoLaterBlock f.map mLblk mLen) {allocated : Nat}
    (most : allocated ≤ mLen) (next : mLblk + allocated ≤ mlfsExtNextAllocatedBlock c) (newblock : Nat) :
    ∀ e ∈ extents f.root.node, Apart e ⟨mLblk,allocated,newblock⟩ := by
  have shape := at_.listing
  rw [at_.next] at next
  rw [covers] at miss
  have outside := of_decide_eq_false miss
  have sorted := order
  rw [shape] at sorted
  have exApart : Apart ex ⟨mLblk,allocated,newblock⟩ := by
    by_cases behind : ex.eeBlock ≤ mLblk
    · exact Or.inl (show ex.eeBlock + ex.eeLen ≤ mLblk by omega)
    · -- All extents start behind the request, so it must end before the first of them.
      have first := at_.low.resolve_right behind
      rw [first,nil_append] at shape
      have positive := (order.valid ex (by simp [shape])).positive
      have low : ¬ ∃ b ≤ mLblk, f.map b ≠ none := by
        rintro ⟨b,bound,mapped⟩
        refine mapped (blockMap_eq_none.mpr fun e member => decide_eq_false fun here => ?_)
        rw [shape] at member order
        rcases mem_cons.mp member with rfl | later
        · omega
        · have ahead : Before ex e := (pairwise_cons.mp order.sorted).1 e later
          unfold Before at ahead
          omega
      refine Or.inr (show mLblk + allocated ≤ ex.eeBlock from ?_)
      by_contra reaches
      have gap := reach.resolve_left low (ex.eeBlock - mLblk) (by omega)
      rw [Nat.add_sub_cancel' (by omega)] at gap
      have clear := blockMap_eq_none.mp gap ex (by simp [shape])
      rw [covers_iff.mpr ⟨le_refl _,by omega⟩] at clear
      cases clear
  intro e member
  rw [shape] at member
  rcases mem_append.mp member with early | late
  · exact Or.inl (located_early at_ order early)
  · rcases mem_cons.mp late with rfl | later
    · exact exApart
    · have tail := (pairwise_cons.mp sorted.parts.2.1.sorted).2
      cases listed : right ++ extentsAfter c.path with
      | nil =>
        rw [listed] at later
        cases later
      | cons f rest =>
        rw [listed] at later next tail
        have ends : mLblk + allocated ≤ f.eeBlock := next
        rcases mem_cons.mp later with rfl | further
        · exact Or.inr ends
        · have ahead : Before f e := (pairwise_cons.mp tail).1 e further
          unfold Before at ahead
          exact Or.inr (show mLblk + allocated ≤ e.eeBlock by omega)

theorem create_hit (consistent : Consistent held f) (asked : 0 < mLen) (mapped : f.map mLblk ≠ none) :
    ∃ result, mlfsExtGetBlocks f.root f.sb mLblk mLen true = some (result,f.root,f.sb) ∧ Hit f.map mLblk mLen result := by
  have order := consistent.tree.order
  have some_ : extents f.root.node ≠ [] := by
    intro empty
    refine mapped (blockMap_eq_none.mpr fun e member => ?_)
    rw [empty] at member
    cases member
  obtain ⟨c,key,left,ex,right,walk,at_⟩ := consistent.tree.located some_ mLblk
  have here := at_.here
  have member := at_.member
  have hit : covers mLblk ex = true := by
    by_contra miss
    refine mapped (blockMap_eq_none.mpr fun e listed => ?_)
    by_contra other
    have covered : covers mLblk e = true := by simpa using other
    cases located_maps order at_ e listed covered
    exact miss covered
  have test : decide (ex.eeBlock ≤ mLblk ∧ mLblk < ex.eeBlock + ex.eeLen) = true := hit
  refine ⟨_,?_,hit_of_covers order member hit asked⟩
  simp only [mlfsExtGetBlocks,walk,at_.place,here,test,bind_eq_bind,bind_some,reduceCtorEq,
    false_and,if_false,if_true,filter_some]

theorem create_miss (consistent : Consistent held f) (inside : mLblk < extMaxBlocks) (unmapped : f.map mLblk = none) :
    ∃ c next, mlfsFindExtent f.root mLblk = some c ∧ mLblk < next ∧ next ≤ extMaxBlocks ∧
      (next = extMaxBlocks ∨ f.map next ≠ none) ∧
      (∀ mLen, mlfsExtGetBlocks f.root f.sb mLblk mLen true =
        allocateAndInsert f.root f.sb mLblk (min (next - mLblk) mLen) c) ∧
      ∀ mLen allocated newblock, ReachesNoLaterBlock f.map mLblk mLen → allocated ≤ mLen → mLblk + allocated ≤ next →
        ∀ e ∈ extents f.root.node, Apart e ⟨mLblk,allocated,newblock⟩ := by
  have treeOk := consistent.tree
  have order := treeOk.order
  by_cases empty : extents f.root.node = []
  · obtain ⟨c,walk,noExt,next⟩ : ∃ c, mlfsFindExtent f.root mLblk = some c ∧ c.pExt = none ∧
        mlfsExtNextAllocatedBlock c = extMaxBlocks := by
      rw [TreeOk.empty treeOk empty]
      exact ⟨⟨.root,[],none⟩,rfl,rfl,rfl⟩
    have flat : f.root.ehDepth = 0 := congrArg ExtRoot.ehDepth (TreeOk.empty treeOk empty)
    have open_ : ¬ extMaxBlocks ≤ mLblk := by omega
    refine ⟨c,extMaxBlocks,walk,inside,le_refl _,Or.inl rfl,fun mLen => ?_,by simp [empty]⟩
    simp only [mlfsExtGetBlocks,walk,noExt,flat,next,open_,bind_eq_bind,bind_some,
      bind_none,filter_none,ne_eq,not_true_eq_false,and_false,if_false,if_true]
    rfl
  · obtain ⟨c,key,left,ex,right,walk,at_⟩ := treeOk.located empty mLblk
    have here := at_.here
    have miss : covers mLblk ex = false := blockMap_eq_none.mp unmapped ex at_.member
    have behind : mLblk < mlfsExtNextAllocatedBlock c ∧ mlfsExtNextAllocatedBlock c ≤ extMaxBlocks ∧
        (mlfsExtNextAllocatedBlock c = extMaxBlocks ∨ f.map (mlfsExtNextAllocatedBlock c) ≠ none) := by
      rw [at_.next]
      cases listed : right ++ extentsAfter c.path with
      | nil => exact ⟨inside,le_refl _,Or.inl rfl⟩
      | cons e rest =>
        have bound := at_.high e (by simp [listed])
        have present : e ∈ extents f.root.node := by
          rw [at_.listing,listed]
          simp
        have valid := order.valid e present
        have positive := valid.positive
        have ends := valid.inside
        simp only [head?_cons,map_some,getD_some]
        refine ⟨bound,by omega,Or.inr fun gap => ?_⟩
        have clear := blockMap_eq_none.mp gap e present
        rw [covers_iff.mpr ⟨le_refl _,by omega⟩] at clear
        cases clear
    have test : decide (ex.eeBlock ≤ mLblk ∧ mLblk < ex.eeBlock + ex.eeLen) = false := miss
    have open_ : ¬ mlfsExtNextAllocatedBlock c ≤ mLblk := by omega
    refine ⟨c,mlfsExtNextAllocatedBlock c,walk,behind.1,behind.2.1,behind.2.2,fun mLen => ?_,
      fun mLen allocated newblock reach most next => create_apart order at_ miss reach most next newblock⟩
    simp only [mlfsExtGetBlocks,walk,at_.place,here,test,open_,bind_eq_bind,bind_some,
      reduceCtorEq,Bool.false_eq_true,false_and,if_false,if_true,filter_some]
    rfl

theorem create_ok (consistent : Consistent held f) (asked : 0 < mLen) (short : mLen ≤ extInitMaxLen)
    (inside : mLblk < extMaxBlocks) (reach : ReachesNoLaterBlock f.map mLblk mLen)
    (go : Proceeds (Room f.sb .data mLen ∧ f.root.ehDepth + 2 + mLen < f.sb.free.card)
      (mlfsExtGetBlocks f.root f.sb mLblk mLen true)) :
    ∃ result root sb, mlfsExtGetBlocks f.root f.sb mLblk mLen true = some (result,root,sb) ∧
      Consistent held ⟨sb,root⟩ ∧
      (f.map mLblk ≠ none → Hit f.map mLblk mLen result ∧ blockMap (extents root.node) = f.map) ∧
      (f.map mLblk = none → Fresh f.map f.sb.free mLblk mLen result (blockMap (extents root.node))) := by
  by_cases unmapped : f.map mLblk = none
  · obtain ⟨c,next,walk,low,high,_,path,apart⟩ := create_miss consistent inside unmapped
    obtain ⟨newblock,sb₁,root,sb,alloc,done,after,fresh⟩ := create_planned (min (next - mLblk) mLen)
      consistent walk (by omega) (by omega) short (by omega)
      (fun newblock => apart mLen _ newblock reach (by omega) (by omega))
      (go.of_imp id fun none => by rw [path,allocateAndInsert_none none])
    refine ⟨⟨min (next - mLblk) mLen,newblock,min (next - mLblk) mLen⟩,root,sb,?_,after,
      fun mapped => absurd unmapped mapped,fun _ => fresh⟩
    simp only [path,allocateAndInsert,alloc,done,bind_some]
  · obtain ⟨result,got,hit⟩ := create_hit consistent asked unmapped
    exact ⟨result,f.root,f.sb,got,consistent,fun _ => ⟨hit,rfl⟩,fun none => absurd none unmapped⟩

variable {result : MapResult}

theorem create_whole (consistent : Consistent held f) (inside : mLblk + mLen ≤ extMaxBlocks) (asked : 0 < mLen)
    (unmapped : ∀ i < mLen, f.map (mLblk + i) = none)
    (got : mlfsExtGetBlocks f.root f.sb mLblk mLen true = some (result,root,sb)) :
    result.ret = mLen ∧ ∃ sb₁, mlfsExtAllocBlocks f.sb .data mLen = some (result.mPblk,sb₁) := by
  have first : f.map mLblk = none := unmapped 0 asked
  obtain ⟨c,next,_,low,_,ends,path,_⟩ := create_miss consistent (by omega) first
  have whole : min (next - mLblk) mLen = mLen := by
    refine min_eq_right ?_
    rcases ends with last | mapped
    · omega
    · by_contra near
      have gap := unmapped (next - mLblk) (by omega)
      rw [Nat.add_sub_cancel' (by omega)] at gap
      exact mapped gap
  rw [path,whole,allocateAndInsert] at got
  obtain ⟨⟨newblock,sb₁⟩,alloc,got⟩ := bind_eq_some_iff.mp got
  obtain ⟨_,_,got⟩ := bind_eq_some_iff.mp got
  cases got
  exact ⟨rfl,sb₁,alloc⟩

theorem lookup_tree (treeOk : TreeOk f.root) (asked : 0 < mLen) (inside : mLblk < extMaxBlocks) :
    ∃ result, mlfsExtGetBlocks f.root f.sb mLblk mLen false = some (result,f.root,f.sb) ∧
      (f.map mLblk ≠ none → Hit f.map mLblk mLen result) ∧ (f.map mLblk = none → result.ret = 0) := by
  have order := treeOk.order
  by_cases empty : extents f.root.node = []
  · have none : f.map mLblk = none := blockMap_eq_none.mpr fun e member => by rw [empty] at member; cases member
    obtain ⟨sb,root⟩ := f
    cases TreeOk.empty treeOk empty
    exact ⟨_,rfl,fun mapped => absurd none mapped,fun _ => rfl⟩
  · obtain ⟨c,key,left,ex,right,walk,at_⟩ := treeOk.located empty mLblk
    have here := at_.here
    have member := at_.member
    by_cases hit : covers mLblk ex = true
    · have mapped : Maps (extents f.root.node) mLblk _ := ⟨ex,member,hit,rfl⟩
      refine ⟨_,?_,fun _ => hit_of_covers order member hit asked,fun none => ?_⟩
      · have test : decide (ex.eeBlock ≤ mLblk ∧ mLblk < ex.eeBlock + ex.eeLen) = true := hit
        simp only [mlfsExtGetBlocks,walk,at_.place,here,test,bind_eq_bind,bind_some,reduceCtorEq,
          false_and,if_false,if_true,filter_some]
      · rw [File.map,(blockMap_eq_some order).mpr mapped] at none
        cases none
    · have none : f.map mLblk = none := by
        refine blockMap_eq_none.mpr fun e listed => ?_
        by_contra other
        have covered : covers mLblk e = true := by simpa using other
        cases located_maps order at_ e listed covered
        exact hit covered
      have test : decide (ex.eeBlock ≤ mLblk ∧ mLblk < ex.eeBlock + ex.eeLen) = false := by simpa [covers] using hit
      obtain ⟨hole,found⟩ : ∃ hole, mlfsExtDetermineHole c (some ex) mLblk = some hole := by
        simp only [mlfsExtDetermineHole]
        split
        · exact ⟨_,rfl⟩
        · rename_i behind
          have ended := of_decide_eq_false test
          have further : mLblk < mlfsExtNextAllocatedBlock c := by
            rw [at_.next]
            cases listed : right ++ extentsAfter c.path with
            | nil => exact inside
            | cons e rest => exact at_.high e (by simp [listed])
          rw [if_neg (by omega)]
          exact ⟨_,rfl⟩
      refine ⟨⟨0,0,min mLen hole⟩,?_,fun mapped => absurd none mapped,fun _ => rfl⟩
      simp only [mlfsExtGetBlocks,walk,at_.place,here,test,found,bind_eq_bind,bind_some,reduceCtorEq,
        Bool.false_eq_true,false_and,if_false,filter_some]

theorem mapped_inside (treeOk : TreeOk f.root) (mapped : f.map b = some p) : b < extMaxBlocks := by
  obtain ⟨e,member,covered,_⟩ := (blockMap_eq_some treeOk.order).mp mapped
  exact lt_of_lt_of_le (covers_iff.mp covered).2 (treeOk.order.valid e member).inside

theorem lookup_found (treeOk : TreeOk f.root)
    (got : mlfsExtGetBlocks f.root f.sb mLblk mLen false = some (result,root,sb)) (found : result.ret ≠ 0) :
    Hit f.map mLblk mLen result := by
  by_cases empty : extents f.root.node = []
  · obtain ⟨_,_⟩ := f
    cases TreeOk.empty treeOk empty
    cases got
    exact absurd rfl found
  · obtain ⟨c,key,left,ex,right,walk,at_⟩ := treeOk.located empty mLblk
    have here := at_.here
    have member := at_.member
    simp only [mlfsExtGetBlocks,walk,at_.place,here,bind_eq_bind,bind_some,reduceCtorEq,false_and,if_false] at got
    split at got
    · rename_i ex' kept
      obtain ⟨same,hit⟩ := filter_eq_some_iff.mp kept
      cases same
      cases got
      exact hit_of_covers treeOk.order member hit (Nat.pos_of_ne_zero fun none => found (by dsimp only; rw [none,Nat.min_zero]))
    · obtain ⟨_,_,rest⟩ := bind_eq_some_iff.mp got
      cases rest
      exact absurd rfl found

theorem lookup_ok (consistent : Consistent held f) (asked : 0 < mLen) (inside : mLblk < extMaxBlocks) :
    ∃ result, mlfsExtGetBlocks f.root f.sb mLblk mLen false = some (result,f.root,f.sb) ∧
      (f.map mLblk ≠ none → Hit f.map mLblk mLen result) ∧ (f.map mLblk = none → result.ret = 0) :=
  lookup_tree consistent.tree asked inside

end Create

inductive Action where
  | create (mLblk mLen : Nat)
  | lookup (mLblk mLen : Nat)
  | truncate (start stop : Nat)
deriving DecidableEq, Repr

def step (f : File) : Action → Option (MapResult × File)
  | .create mLblk mLen => (mlfsExtGetBlocks f.root f.sb mLblk mLen true).map fun r => (r.1,⟨r.2.2,r.2.1⟩)
  | .lookup mLblk mLen => (mlfsExtGetBlocks f.root f.sb mLblk mLen false).map fun r => (r.1,⟨r.2.2,r.2.1⟩)
  | .truncate start stop => (mlfsExtTruncate f.root start stop f.sb).map fun r => (⟨0,0,0⟩,⟨r.2,r.1⟩)

def advance (f : File) (action : Action) : Option File := (step f action).map Prod.snd

def Behaves (f : File) (action : Action) (result : MapResult) (f' : File) : Prop :=
  match action with
  | .create mLblk mLen =>
    (f.map mLblk ≠ none → Hit f.map mLblk mLen result ∧ f'.map = f.map) ∧
      (f.map mLblk = none → Fresh f.map f.sb.free mLblk mLen result f'.map)
  | .lookup mLblk mLen =>
    f'.map = f.map ∧ (f.map mLblk ≠ none → Hit f.map mLblk mLen result) ∧ (f.map mLblk = none → result.ret = 0)
  | .truncate start stop => f'.map = punch f.map start stop

def Spacious (f : File) (mLen : Nat) : Prop :=
  (mLen ≠ 0 → Room f.sb .data mLen) ∧ f.root.ehDepth + 2 + mLen < f.sb.free.card

def Admissible (f : File) : Action → Prop
  | .create mLblk mLen => 0 < mLen ∧ mLen ≤ extInitMaxLen ∧ mLblk < extMaxBlocks ∧
      ReachesNoLaterBlock f.map mLblk mLen ∧ Spacious f mLen
  | .lookup mLblk mLen => 0 < mLen ∧ mLblk < extMaxBlocks
  | .truncate start stop => start ≤ stop ∧ stop < extMaxBlocks - 1 ∧ Spacious f 0

instance (map : BlockMap) (mLblk mLen : Nat) : Decidable (ReachesNoLaterBlock map mLblk mLen) := by
  unfold ReachesNoLaterBlock
  infer_instance

instance (sb : SuperBlock) (atype : AllocType) (num : Nat) : Decidable (Room sb atype num) := by
  unfold Room
  infer_instance

instance (f : File) (mLen : Nat) : Decidable (Spacious f mLen) := by
  unfold Spacious
  infer_instance

instance (f : File) (action : Action) : Decidable (Admissible f action) := by
  cases action <;> (unfold Admissible; infer_instance)

theorem step_ok {held : Multiset Nat} {f : File} {action : Action} (consistent : Consistent held f)
    (allowed : Admissible f action) :
    ∃ result f', step f action = some (result,f') ∧ Consistent held f' ∧ Behaves f action result f' := by
  cases action with
  | create mLblk mLen =>
    obtain ⟨asked,short,inside,reach,room,space⟩ := allowed
    obtain ⟨result,root,sb,done,after,hit,fresh⟩ :=
      create_ok consistent asked short inside reach (Or.inl ⟨room (Nat.ne_of_gt asked),space⟩)
    exact ⟨result,⟨sb,root⟩,by rw [step,done]; rfl,after,hit,fresh⟩
  | lookup mLblk mLen =>
    obtain ⟨asked,inside⟩ := allowed
    obtain ⟨result,done,hit,miss⟩ := lookup_ok consistent asked inside
    exact ⟨result,f,by rw [step,done]; rfl,consistent,rfl,hit,miss⟩
  | truncate start stop =>
    obtain ⟨_,bound,_,space⟩ := allowed
    obtain ⟨root,sb,done,ok,punched⟩ := truncate_ok consistent bound (Or.inl (Or.inr space))
    exact ⟨⟨0,0,0⟩,⟨sb,root⟩,by rw [step,done]; rfl,consistent.truncated done ok,punched⟩

theorem tree_is_block_map (held : Multiset Nat) (f : File) (actions : List Action) (start : Consistent held f)
    (guarded : Guarded advance Admissible f actions) :
    ∃ f', run advance f actions = some f' ∧ ∀ action, Admissible f' action →
      ∃ result f'', step f' action = some (result,f'') ∧ Behaves f' action result f'' := by
  induction actions generalizing f with
  | nil =>
    refine ⟨f,rfl,fun action allowed => ?_⟩
    obtain ⟨result,f',done,_,behaves⟩ := step_ok start allowed
    exact ⟨result,f',done,behaves⟩
  | cons action rest ih =>
    obtain ⟨result,next,done,consistent,_⟩ := step_ok start guarded.1
    have stepped : advance f action = some next := by rw [advance,done]; rfl
    obtain ⟨f',ran,behaves⟩ := ih next consistent (guarded.tail stepped)
    exact ⟨f',(run_cons advance f f' action rest).mpr ⟨next,stepped,ran⟩,behaves⟩

def newFile (numBlocks reservedBlocks : Nat) : File := ⟨initSuperBlock numBlocks reservedBlocks,⟨0,leafNode []⟩⟩

theorem newFile_consistent {numBlocks reservedBlocks : Nat} (layout : mlfsExtSpaceRoot < reservedBlocks)
    (space : reservedBlocks < numBlocks) : Consistent 0 (newFile numBlocks reservedBlocks) := by
  refine ⟨⟨Or.inl rfl,⟨fun _ member => absurd member not_mem_nil,.nil⟩⟩,?_,layout⟩
  exact init_working (lt_of_le_of_lt (Nat.zero_le _) layout) space

theorem tree_is_block_map_grown :
    Guarded advance Admissible (newFile 100 10) [.create 10 4,.create 30 4,.create 20 4,.create 50 4,.create 40 4,
      .truncate 21 31,.lookup 32 4,.create 2 5] ∧
    ∃ f', run advance (newFile 100 10) [.create 10 4,.create 30 4,.create 20 4,.create 50 4,.create 40 4,
        .truncate 21 31,.lookup 32 4,.create 2 5] = some f' ∧
      ∀ action, Admissible f' action → ∃ result f'', step f' action = some (result,f'') ∧ Behaves f' action result f'' :=
  (and_iff_left_of_imp (tree_is_block_map 0 (newFile 100 10) _ (newFile_consistent (by decide) (by decide)))).mpr (by decide +kernel)

theorem Behaves.keeps {f f' : File} {action : Action} {b p : Nat} (behaves : Behaves f action result f')
    (spared : ∀ first last, action = .truncate first last → b < first ∨ last < b) (mapped : f.map b = some p) :
    f'.map b = some p := by
  cases action with
  | create mLblk mLen =>
    by_cases old : f.map mLblk = none
    · obtain ⟨_,_,unmapped,_,extended⟩ := behaves.2 old
      rw [extended,extend,if_neg,mapped]
      rintro ⟨low,high⟩
      have free := unmapped (b - mLblk) (by omega)
      rw [Nat.add_sub_cancel' low,mapped] at free
      cases free
    · rw [(behaves.1 old).2,mapped]
  | lookup mLblk mLen => rw [behaves.1,mapped]
  | truncate first last =>
    have beside := spared first last rfl
    rw [behaves,punch,if_neg (by omega),mapped]

-- Splits, merges and new levels of the tree move no block of the file.
theorem mapped_until_truncated (held : Multiset Nat) (f f' : File) (actions : List Action) (b p : Nat) (start : Consistent held f)
    (guarded : Guarded advance Admissible f actions) (reached : run advance f actions = some f')
    (spared : ∀ first last, .truncate first last ∈ actions → b < first ∨ last < b) (mapped : f.map b = some p) :
    Consistent held f' ∧ f'.map b = some p := by
  induction actions generalizing f with
  | nil =>
    cases reached
    exact ⟨start,mapped⟩
  | cons action rest ih =>
    obtain ⟨result,next,done,consistent,behaves⟩ := step_ok start guarded.1
    have stepped : advance f action = some next := by rw [advance,done]; rfl
    obtain ⟨_,same,ran⟩ := (run_cons advance f f' action rest).mp reached
    cases stepped.symm.trans same
    have kept := behaves.keeps (fun first last same => spared first last (same ▸ mem_cons_self)) mapped
    exact ih next consistent (guarded.tail stepped) ran (fun first last later => spared first last (mem_cons_of_mem _ later)) kept

theorem mapped_until_truncated_grown : ∃ f f', advance (newFile 100 10) (.create 10 4) = some f ∧
    run advance f [.create 30 4,.create 20 4,.truncate 13 31] = some f' ∧ f'.map 12 = some 12 := by
  obtain ⟨f,stepped,mapped,guarded,f',reached,_⟩ : ∃ f, advance (newFile 100 10) (.create 10 4) = some f ∧ f.map 12 = some 12 ∧
    Guarded advance Admissible f [.create 30 4,.create 20 4,.truncate 13 31] ∧
    ∃ f', run advance f [.create 30 4,.create 20 4,.truncate 13 31] = some f' ∧ True := by decide +kernel
  refine ⟨f,f',stepped,reached,(mapped_until_truncated 0 f f' _ 12 12 ?_ guarded reached (by simp) mapped).2⟩
  obtain ⟨_,_,done,consistent,_⟩ := step_ok (newFile_consistent (by decide) (by decide))
    (by decide +kernel : Admissible (newFile 100 10) (.create 10 4))
  rw [advance,done] at stepped
  cases stepped
  exact consistent

-- A request that starts below all mapped blocks and reaches the first of them maps it a second time.
theorem create_over_mapped_block : ∃ f f' result, advance (newFile 100 10) (.create 10 10) = some f ∧
    step f (.create 5 10) = some (result,f') ∧ f.map 5 = none ∧ result = ⟨10,20,10⟩ ∧
    (step f (.lookup 12 1)).map Prod.fst = some ⟨1,12,1⟩ ∧ (step f' (.lookup 12 1)).map Prod.fst = some ⟨1,12,1⟩ ∧
    ¬ Behaves f (.create 5 10) result f' := by
  refine ⟨_,_,_,rfl,rfl,by decide +kernel,by decide +kernel,by decide +kernel,by decide +kernel,fun behaves => ?_⟩
  have fresh := behaves.2 (by decide +kernel)
  have unmapped := fresh.unmapped 5 (by decide +kernel)
  revert unmapped
  decide +kernel

end Assise.FileMap
