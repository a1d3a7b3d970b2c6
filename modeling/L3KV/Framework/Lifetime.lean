import L3KV.Framework.Words

/-!
# String objects and views of them

A `std::string_view` refers to a string object and not to its bytes. The object is usable
until the end of the block that declares it; what a later read through the view returns is
not specified, so it is taken from an arbitrary function.
-/

namespace Framework

/-- The string objects created so far, in order, each with its content and whether its block
is still open. -/
structure StringHeap where
  objects : List (Bytes × Bool)

/-- A view of a whole string object. -/
structure StringView where
  obj : Nat
  len : Nat
  deriving DecidableEq, Repr

namespace StringHeap

def empty : StringHeap := ⟨[]⟩

/-- The position the next object gets. -/
def size (h : StringHeap) : Nat := h.objects.length

def alloc (h : StringHeap) (s : Bytes) : StringHeap := ⟨h.objects ++ [(s, true)]⟩

def view (h : StringHeap) (obj : Nat) : StringView :=
  ⟨obj, ((h.objects[obj]?.map fun o => o.1.length).getD 0)⟩

/-- Leave a block that was entered when the heap had `mark` objects. -/
def closeBlock (h : StringHeap) (mark : Nat) : StringHeap :=
  ⟨h.objects.take mark ++ (h.objects.drop mark).map fun o => (o.1, false)⟩

def read (unspecified : Nat → Nat → UInt8) (h : StringHeap) (v : StringView) : Bytes :=
  match h.objects[v.obj]? with
  | some (s, true) => s.take v.len
  | _ => (List.range v.len).map (unspecified v.obj)

def Live (h : StringHeap) (v : StringView) (s : Bytes) : Prop :=
  h.objects[v.obj]? = some (s, true) ∧ v.len = s.length

/-- The view refers to an object whose block was left. -/
def Dead (h : StringHeap) (v : StringView) : Prop := ∃ s, h.objects[v.obj]? = some (s, false)

theorem Dead.read {h : StringHeap} {v : StringView} (hv : h.Dead v)
    (unspecified : Nat → Nat → UInt8) :
    h.read unspecified v = (List.range v.len).map (unspecified v.obj) := by
  obtain ⟨s, hs⟩ := hv
  simp only [StringHeap.read, hs]

theorem Dead.alloc {h : StringHeap} {v : StringView} (hv : h.Dead v) (t : Bytes) :
    (h.alloc t).Dead v := by
  obtain ⟨s, hs⟩ := hv
  have hlt : v.obj < h.objects.length := (List.getElem?_eq_some_iff.mp hs).1
  exact ⟨s, by simpa [StringHeap.alloc, List.getElem?_append_left hlt] using hs⟩

/-- Leaving a block ends the objects declared in it. -/
theorem Live.closeBlock_dead {h : StringHeap} {v : StringView} {s : Bytes} (hv : h.Live v s)
    {mark : Nat} (hmark : mark ≤ v.obj) : (h.closeBlock mark).Dead v := by
  have hlt : v.obj < h.objects.length := (List.getElem?_eq_some_iff.mp hv.1).1
  refine ⟨s, ?_⟩
  have hlen : (h.objects.take mark).length = mark := by
    rw [List.length_take]
    omega
  rw [closeBlock, List.getElem?_append_right (by omega), hlen, List.getElem?_map,
    List.getElem?_drop, show mark + (v.obj - mark) = v.obj by omega, hv.1]
  rfl

theorem Dead.closeBlock {h : StringHeap} {v : StringView} (hv : h.Dead v) (mark : Nat) :
    (h.closeBlock mark).Dead v := by
  obtain ⟨s, hs⟩ := hv
  have hlt : v.obj < h.objects.length := (List.getElem?_eq_some_iff.mp hs).1
  refine ⟨s, ?_⟩
  unfold StringHeap.closeBlock
  by_cases hmark : v.obj < mark
  · rw [List.getElem?_append_left (by rw [List.length_take]; omega),
      List.getElem?_take_of_lt hmark]
    exact hs
  · have hlen : (h.objects.take mark).length = mark := by
      rw [List.length_take]
      omega
    rw [List.getElem?_append_right (by omega), hlen, List.getElem?_map,
      List.getElem?_drop, show mark + (v.obj - mark) = v.obj by omega, hs]
    rfl

end StringHeap

end Framework
