import Mathlib.Data.List.Induction
import Mathlib.Data.List.Nodup

/-!
# Hash chains

A chain of nodes, each of which names the hash of the node before it and carries the hash of its own
content. The first node names the hash the chain starts from, and a node whose content has no hash is in
no chain. Where no two hashes agree, a chain is determined by the nodes it has, and by its tip.
-/

namespace Lib

/-- How a node is read as a link of a chain. -/
structure Links (N H : Type) where
  prev : N → H
  hash : N → H
  digest : N → Option H

namespace Links

variable {N H : Type} (S : Links N H)

def IsChain : H → List N → Prop
  | _, [] => True
  | h, x :: xs => S.prev x = h ∧ S.digest x = some (S.hash x) ∧ IsChain (S.hash x) xs

/-- The hash that the next node has to name. -/
def tip (h : H) (xs : List N) : H := (xs.getLast?.map S.hash).getD h

@[simp] theorem tip_nil (h : H) : S.tip h [] = h := rfl

@[simp] theorem tip_cons (h : H) (x : N) (xs : List N) : S.tip h (x :: xs) = S.tip (S.hash x) xs := by
  unfold tip
  rw [List.getLast?_cons]
  cases xs.getLast? <;> rfl

theorem tip_append (h : H) (xs ys : List N) : S.tip h (xs ++ ys) = S.tip (S.tip h xs) ys := by
  induction xs generalizing h with
  | nil => rfl
  | cons x xs ih => simp [ih]

theorem tip_concat (h : H) (xs : List N) (x : N) : S.tip h (xs ++ [x]) = S.hash x := by
  simp [tip_append]

theorem isChain_append {h : H} {xs ys : List N} :
    S.IsChain h (xs ++ ys) ↔ S.IsChain h xs ∧ S.IsChain (S.tip h xs) ys := by
  induction xs generalizing h with
  | nil => simp [IsChain]
  | cons x xs ih => simp only [List.cons_append, IsChain, ih, tip_cons, and_assoc]

theorem IsChain.concat {h : H} {xs : List N} {x : N} (hc : S.IsChain h xs)
    (hprev : S.prev x = S.tip h xs) (hhash : S.digest x = some (S.hash x)) : S.IsChain h (xs ++ [x]) :=
  S.isChain_append.mpr ⟨hc, hprev, hhash, trivial⟩

variable {S} {h : H} {xs ys : List N}

theorem IsChain.digest_eq {x : N} (hc : S.IsChain h xs) (hx : x ∈ xs) :
    S.digest x = some (S.hash x) := by
  obtain ⟨pre, post, rfl⟩ := List.append_of_mem hx
  exact (S.isChain_append.mp hc).2.2.1

theorem IsChain.prev_eq {x : N} {pre post : List N} (hc : S.IsChain h (pre ++ x :: post)) :
    S.prev x = S.tip h pre := (S.isChain_append.mp hc).2.1

theorem tip_mem (h : H) (xs : List N) : S.tip h xs ∈ h :: xs.map S.hash := by
  induction xs generalizing h with
  | nil => simp
  | cons x xs ih => simpa using Or.inr (ih (S.hash x))

theorem IsChain.prev_mem {x : N} (hc : S.IsChain h xs) (hx : x ∈ xs) :
    S.prev x ∈ h :: xs.map S.hash := by
  obtain ⟨pre, post, rfl⟩ := List.append_of_mem hx
  rw [hc.prev_eq, List.map_append]
  cases List.mem_cons.mp (S.tip_mem h pre) with
  | inl he => simp [he]
  | inr hm => exact List.mem_cons_of_mem _ (List.mem_append_left _ hm)

/-- While the hashes before it are distinct, the last one is new. Had a node `y` carried it already,
`y` and the last node would name the same hash, so the tip would have been reached before `y`. -/
theorem IsChain.last_fresh {x : N} (hc : S.IsChain h (xs ++ [x])) (hn : (h :: xs.map S.hash).Nodup)
    (hprev : ∀ y ∈ xs, ∀ d, S.digest x = some d → S.digest y = some d → S.prev x = S.prev y)
    (hstart : S.digest x ≠ some h) : S.hash x ∉ h :: xs.map S.hash := by
  obtain ⟨hcs, -⟩ := S.isChain_append.mp hc
  have hx : S.digest x = some (S.hash x) := hc.digest_eq (by simp)
  intro hm
  cases List.mem_cons.mp hm with
  | inl he => exact hstart (hx.trans (congrArg some he))
  | inr hm =>
      obtain ⟨y, hy, he⟩ := List.mem_map.mp hm
      have hp : S.prev x = S.prev y := by
        apply hprev y hy _ hx
        rw [hcs.digest_eq hy, he]
      obtain ⟨pre, post, rfl⟩ := List.append_of_mem hy
      rw [hc.prev_eq, hcs.prev_eq] at hp
      have hlate : S.tip h (pre ++ y :: post) ∈ (y :: post).map S.hash := by
        rw [tip_append, tip_cons]
        simpa using S.tip_mem (S.hash y) post
      rw [hp] at hlate
      rw [List.map_append, ← List.cons_append] at hn
      exact List.disjoint_of_nodup_append hn (S.tip_mem h pre) hlate

/-- Where digests only agree on nodes that name the same hash, and no digest is the start, the hashes
along a chain are distinct. -/
theorem IsChain.nodup (hc : S.IsChain h xs)
    (hprev : ∀ x ∈ xs, ∀ y ∈ xs, ∀ d, S.digest x = some d → S.digest y = some d → S.prev x = S.prev y)
    (hstart : ∀ x ∈ xs, S.digest x ≠ some h) : (h :: xs.map S.hash).Nodup := by
  induction xs using List.reverseRecOn with
  | nil => simp
  | append_singleton xs x ih =>
      have hnodup := ih (S.isChain_append.mp hc).1 (fun y hy z hz => hprev y (by simp [hy]) z (by simp [hz]))
        (fun y hy => hstart y (by simp [hy]))
      have hfresh := hc.last_fresh hnodup (fun y hy => hprev x (by simp) y (by simp [hy]))
        (hstart x (by simp))
      have hall : (h :: (xs ++ [x]).map S.hash) = (h :: xs.map S.hash) ++ [S.hash x] := by simp
      rw [hall, List.nodup_append]
      refine ⟨hnodup, by simp, fun a ha b hb hab => hfresh ?_⟩
      rw [List.mem_singleton] at hb
      rw [← hb, ← hab]
      exact ha

/-- Nodes of one chain that form a chain from the same start are the first ones of it. -/
theorem IsChain.prefix_of_subset (hc : S.IsChain h xs) (hn : (h :: xs.map S.hash).Nodup)
    (hc' : S.IsChain h ys) (hsub : ys ⊆ xs) : ys <+: xs := by
  induction xs generalizing h ys with
  | nil => simp [List.eq_nil_of_subset_nil hsub]
  | cons x xs ih =>
      cases ys with
      | nil => exact List.nil_prefix
      | cons y ys =>
          obtain ⟨hyp, -, hys⟩ := hc'
          obtain ⟨-, -, hxs⟩ := hc
          have hlater : ∀ z ∈ xs, S.prev z ≠ h := by
            intro z hz he
            have hm := hxs.prev_mem hz
            rw [he, ← List.map_cons] at hm
            exact (List.nodup_cons.mp hn).1 hm
          obtain rfl : y = x := by
            cases List.mem_cons.mp (hsub List.mem_cons_self) with
            | inl he => exact he
            | inr hm => exact absurd hyp (hlater y hm)
          rw [List.prefix_cons_inj]
          apply ih hxs (List.nodup_cons.mp hn).2 hys
          intro z hz
          cases List.mem_cons.mp (hsub (List.mem_cons_of_mem _ hz)) with
          | inl he =>
              subst he
              have hm := hys.prev_mem hz
              rw [hyp] at hm
              have hin : h ∈ (z :: xs).map S.hash := by
                cases List.mem_cons.mp hm with
                | inl he => simp [← he]
                | inr hm =>
                    obtain ⟨u, hu, hue⟩ := List.mem_map.mp hm
                    rw [← hue]
                    exact List.mem_map_of_mem (hsub (List.mem_cons_of_mem _ hu))
              exact absurd hin (List.nodup_cons.mp hn).1
          | inr hm => exact hm

theorem IsChain.eq_of_perm (hc : S.IsChain h xs) (hn : (h :: xs.map S.hash).Nodup)
    (hc' : S.IsChain h ys) (hp : ys.Perm xs) : ys = xs :=
  (hc.prefix_of_subset hn hc' hp.subset).eq_of_length hp.length_eq

theorem IsChain.eq_nil_of_tip_eq (hc : S.IsChain h xs) (hstart : ∀ x ∈ xs, S.digest x ≠ some h)
    (ht : S.tip h xs = h) : xs = [] := by
  rcases List.eq_nil_or_concat' xs with rfl | ⟨xs, x, rfl⟩
  · rfl
  · rw [tip_concat] at ht
    have hx := hc.digest_eq (List.mem_append_right _ List.mem_cons_self)
    rw [ht] at hx
    exact absurd hx (hstart x (by simp))

/-- Only the last node of a chain can be missing from it. -/
theorem IsChain.last_of_missing {x : N} {pre post : List N} (hc : S.IsChain h (pre ++ x :: post))
    (hn : (h :: (pre ++ x :: post).map S.hash).Nodup) (hc' : S.IsChain h (pre ++ post)) :
    post = [] := by
  cases post with
  | nil => rfl
  | cons y post =>
      have hlater : S.prev y = S.hash x := (S.isChain_append.mp hc).2.2.2.1
      have hearlier : S.prev y = S.tip h pre := hc'.prev_eq
      have hm : S.hash x ∈ h :: pre.map S.hash := by
        rw [← hlater, hearlier]
        exact S.tip_mem h pre
      rw [List.map_append, ← List.cons_append] at hn
      exact absurd (List.mem_map_of_mem List.mem_cons_self) (List.disjoint_of_nodup_append hn hm)

/-- A node can be replaced by one that names and carries the same hashes. -/
theorem isChain_replace {x y : N} {pre post : List N} (hprev : S.prev y = S.prev x)
    (hhash : S.hash y = S.hash x) (hdigest : S.digest y = S.digest x) :
    S.IsChain h (pre ++ y :: post) ↔ S.IsChain h (pre ++ x :: post) := by
  simp only [isChain_append, IsChain, hprev, hhash, hdigest]

/-- Chains from one start with the same tip have the same content, node by node. -/
theorem IsChain.map_eq_of_tip_eq {K : Type} {key : N → K} (hc : S.IsChain h xs) (hc' : S.IsChain h ys)
    (hkey : ∀ x ∈ xs, ∀ y ∈ ys, ∀ d, S.digest x = some d → S.digest y = some d → key x = key y)
    (hprev : ∀ x y, key x = key y → S.prev x = S.prev y) (hstart : ∀ x, S.digest x ≠ some h)
    (ht : S.tip h xs = S.tip h ys) : xs.map key = ys.map key := by
  induction xs using List.reverseRecOn generalizing ys with
  | nil =>
      rw [tip_nil] at ht
      rw [hc'.eq_nil_of_tip_eq (fun y _ => hstart y) ht.symm]
  | append_singleton xs x ih =>
      rcases List.eq_nil_or_concat' ys with rfl | ⟨ys, y, rfl⟩
      · rw [tip_nil] at ht
        rw [hc.eq_nil_of_tip_eq (fun x _ => hstart x) ht]
      · rw [tip_concat, tip_concat] at ht
        have hx := hc.digest_eq (List.mem_append_right xs List.mem_cons_self)
        have hy := hc'.digest_eq (List.mem_append_right ys List.mem_cons_self)
        rw [← ht] at hy
        have hk := hkey x (by simp) y (by simp) _ hx hy
        have hp := hprev x y hk
        rw [hc.prev_eq, hc'.prev_eq] at hp
        have hmap := ih (S.isChain_append.mp hc).1 (S.isChain_append.mp hc').1
          (fun u hu v hv => hkey u (by simp [hu]) v (by simp [hv])) hp
        simp [hmap, hk]

end Links

end Lib
