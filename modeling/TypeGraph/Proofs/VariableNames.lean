import TypeGraph.Proofs.NamingOrder
import Mathlib.Data.List.Induction

/-!
# Names of variables

Names tell variables apart. The name of the variable at place `i` is made of the
letter `i % 26` and, from the second round through the alphabet on, of the number
`i / 26`. A letter is no digit, so the two can be read off the name, and different
places have different names (`nameOf_injective`).

Whatever calls are made for names, the names that were given stay, so that at the end
each call has been answered by the place of its variable in the final order
(`run_mapM_name_eq`). That order has each variable once, by its first call
(`naming_faithful`).
-/

namespace TypeGraph.Names

variable {v w : VarId} {i j : Nat} {names : Names} {calls : List VarId}

/-! ## Names of places -/

/-- The letter of a place. -/
def letter (i : Nat) : Char := Char.ofNat ('a'.toNat + i % 26)

/-- The number behind the letter, which is left out in the first round through the
alphabet. -/
def suffix (i : Nat) : List Char := if i < 26 then [] else Nat.toDigits 10 (i / 26)

theorem toList_nameOf (i : Nat) : (nameOf i).toList = '\'' :: letter i :: suffix i := by
  rw [nameOf, suffix, letter]
  split <;> simp

theorem toNat_letter (i : Nat) : (letter i).toNat = 97 + i % 26 := by
  have hlt : i % 26 < 26 := Nat.mod_lt _ (by decide)
  have hvalid : ('a'.toNat + i % 26).isValidChar := Or.inl (by simp; omega)
  rw [letter, Char.ofNat, dif_pos hvalid]
  rfl

/-- The letter tells the place within the alphabet. -/
theorem mod_eq_of_letter_eq (h : letter i = letter j) : i % 26 = j % 26 := by
  have hcode := congrArg Char.toNat h
  rw [toNat_letter, toNat_letter] at hcode
  exact Nat.add_left_cancel hcode

/-- The number tells the round, which is the first one if there is no number. -/
theorem div_eq_of_suffix_eq (h : suffix i = suffix j) : i / 26 = j / 26 := by
  rw [suffix, suffix] at h
  split at h <;> split at h
  · omega
  · exact absurd h.symm Nat.toDigits_ne_nil
  · exact absurd h Nat.toDigits_ne_nil
  · rw [← Nat.ofDigitChars_ten_toDigits (n := i / 26), h, Nat.ofDigitChars_ten_toDigits]

/-- **Different places have different names.** -/
theorem nameOf_injective : Function.Injective nameOf := by
  intro i j h
  have hlist := congrArg String.toList h
  rw [toList_nameOf, toList_nameOf, List.cons.injEq, List.cons.injEq] at hlist
  have hletter := mod_eq_of_letter_eq hlist.2.1
  have hround := div_eq_of_suffix_eq hlist.2.2
  omega

/-! ## Calls for names -/

/-- A variable that has a name is called by it, and nothing is added. -/
theorem run_name_of_known (h : v ∈ names) :
    (name v).run names = (nameOf (names.idxOf v), names) :=
  run_name_of_mem (List.findIdx?_eq_some_of_exists ⟨v, h, beq_self_eq_true v⟩)

/-- Steps that add nothing are done one by one. -/
theorem run_mapM_of_known {α β : Type} {step : α → StateM Names β}
    {answer : α → β} {l : List α} (h : ∀ a ∈ l, (step a).run names = (answer a, names)) :
    (l.mapM step).run names = (l.map answer, names) := by
  induction l with
  | nil => rfl
  | cons a l ih =>
    obtain ⟨ha, hl⟩ := List.forall_mem_cons.1 h
    rw [List.mapM_cons, StateT.run_bind, ha]
    change (List.mapM step l >>= fun answers => pure (_ :: answers)).run names = _
    rw [StateT.run_bind, ih hl]
    rfl

/-- **Each call is answered by the place of its variable among all that are called.** -/
theorem run_mapM_name_eq (calls : List VarId) :
    (calls.mapM name).run [] = (calls.map fun v => nameOf (calls.eraseDups.idxOf v),
      calls.eraseDups) := by
  have hmeets : Meets (calls.mapM name) (calls.flatMap fun v => [v]) :=
    .mapM fun v _ => .name v
  have horder : ((calls.mapM name).run []).2 = calls.eraseDups := by
    rw [List.flatMap_singleton'] at hmeets
    exact hmeets []
  -- The answers would have been the same if all names had been there from the start.
  have hrepeatable : Repeatable (calls.mapM name) := .mapM fun v _ => .name v
  have hagain := (hrepeatable []).2 calls.eraseDups (horder ▸ List.prefix_rfl)
  rw [run_mapM_of_known fun v hv => run_name_of_known (List.mem_eraseDups.2 hv)] at hagain
  exact Prod.ext (congrArg Prod.fst hagain).symm horder

/-- One more call adds its variable behind all others, unless that was called before. -/
theorem eraseDups_concat (calls : List VarId) (v : VarId) :
    (calls ++ [v]).eraseDups = if v ∈ calls then calls.eraseDups
      else calls.eraseDups ++ [v] := by
  rw [List.eraseDups_append]
  split <;> simp [List.removeAll, List.eraseDups_cons, *]

/-- Variables that are listed once each stand in the order of their first calls. -/
theorem pairwise_eraseDups (calls : List VarId) :
    calls.eraseDups.Pairwise fun v w => calls.idxOf v < calls.idxOf w := by
  induction calls using List.reverseRecOn with
  | nil => exact .nil
  | append_singleton calls u ih =>
    have hbefore : ∀ v ∈ calls.eraseDups, (calls ++ [u]).idxOf v = calls.idxOf v :=
        fun v hv =>
      List.idxOf_append_of_mem (List.mem_eraseDups.1 hv)
    have hold : calls.eraseDups.Pairwise fun v w =>
        (calls ++ [u]).idxOf v < (calls ++ [u]).idxOf w := by
      refine ih.imp_of_mem fun {v w} hv hw hvw => ?_
      rwa [hbefore v hv, hbefore w hw]
    rw [eraseDups_concat]
    split
    · exact hold
    · rename_i hu
      refine List.pairwise_append.2 ⟨hold, List.pairwise_singleton _ _,
        fun v hv w hw => ?_⟩
      have hplace : (calls ++ [u]).idxOf u = calls.length := by
        simp [List.idxOf_append, hu]
      rw [List.mem_singleton.1 hw, hplace, hbefore v hv]
      exact List.idxOf_lt_length_of_mem (List.mem_eraseDups.1 hv)

/-- **Names tell variables apart.** Over any calls for names, two answers are the same
just when the calls were for one variable. The `k`-th variable that is called, counted
from 0, has the name of place `k`, and all variables that are called are listed once,
in the order of their first calls. No two places have one name. -/
theorem naming_faithful (calls : List VarId) :
    let answers := ((calls.mapM name).run []).1
    let order := ((calls.mapM name).run []).2
    answers.length = calls.length ∧
      (∀ c ∈ calls.zip answers, ∀ d ∈ calls.zip answers, c.2 = d.2 ↔ c.1 = d.1) ∧
      (∀ c ∈ calls.zip answers, ∀ k, order[k]? = some c.1 → c.2 = nameOf k) ∧
      (order.Nodup ∧ (∀ v, v ∈ order ↔ v ∈ calls) ∧
        order.Pairwise fun v w => calls.idxOf v < calls.idxOf w) ∧
      Function.Injective nameOf := by
  rw [run_mapM_name_eq]
  intro answers order
  have hnodup : order.Nodup := Store.nodup_eraseDups calls
  -- Each call stands next to the name of the place of its variable.
  have hanswer : ∀ c ∈ calls.zip answers,
      c.1 ∈ order ∧ c.2 = nameOf (order.idxOf c.1) := by
    intro c hc
    dsimp only [answers] at hc
    rw [← List.map_prod_left_eq_zip] at hc
    obtain ⟨v, hv, rfl⟩ := List.mem_map.1 hc
    exact ⟨List.mem_eraseDups.2 hv, rfl⟩
  refine ⟨List.length_map _, fun c hc d hd => ?_, fun c hc k hk => ?_,
    ⟨hnodup, ?_, ?_⟩, nameOf_injective⟩
  · obtain ⟨hcmem, hc⟩ := hanswer c hc
    obtain ⟨-, hd⟩ := hanswer d hd
    rw [hc, hd, nameOf_injective.eq_iff, List.idxOf_inj hcmem]
  · obtain ⟨hlt, hplace⟩ := List.getElem?_eq_some_iff.1 hk
    rw [(hanswer c hc).2, ← hplace, hnodup.idxOf_getElem]
  · exact fun v => List.mem_eraseDups
  · exact pairwise_eraseDups calls

/-- After one round through the alphabet the letters come again, with a number that
keeps the names apart. -/
theorem naming_faithful_rounds :
    let calls := (List.range 30).reverse ++ [29, 3]
    let answers := ((calls.mapM name).run []).1
    answers[0]? = some "'a" ∧ answers[26]? = some "'a1" ∧
      answers.drop 30 = ["'a", "'a1"] ∧
      ((calls.mapM name).run []).2 = (List.range 30).reverse ∧
      ∀ c ∈ calls.zip answers, c.2 = "'a1" ↔ c.1 = 3 := by
  intro calls answers
  obtain ⟨-, hsame, -⟩ := naming_faithful calls
  refine ⟨by decide +kernel, by decide +kernel, by decide +kernel,
    by decide +kernel, fun c hc => ?_⟩
  exact hsame c hc (3, "'a1") (by decide +kernel)

end TypeGraph.Names
