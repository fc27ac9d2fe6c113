import CodeOss.Library.Clamping

/-! The views of a split view, and the two passes that change their sizes. Sizes are exact
numbers, and a maximum size may be infinite. -/

namespace CodeOss.Ui

inductive LayoutPriority where
  | Normal
  | Low
  | High
deriving DecidableEq

/-- A view, whose minimum size is not negative and not above its maximum size. -/
structure View where
  minimumSize : ℚ
  maximumSize : WithTop ℚ
  priority : LayoutPriority
  proportionalLayout : Bool
  snap : Bool
  nonneg : 0 ≤ minimumSize
  le : minimumSize ≤ maximumSize

structure ViewItem where
  view : View
  size : ℚ
  cachedVisibleSize : Option ℚ

namespace ViewItem

variable (item : ViewItem)

def visible : Bool := item.cachedVisibleSize.isNone

def setVisible (visible : Bool) (size : Option ℚ) : ViewItem :=
  match visible, item.cachedVisibleSize with
  | true, some cachedVisibleSize =>
    { item with
      size := clamp cachedVisibleSize item.view.minimumSize item.view.maximumSize
      cachedVisibleSize := none }
  | false, none => { item with cachedVisibleSize := some (size.getD item.size), size := 0 }
  | _, _ => item

def minimumSize : ℚ := if item.visible then item.view.minimumSize else 0

def maximumSize : WithTop ℚ := if item.visible then item.view.maximumSize else 0

def clampSize (size : ℚ) : ℚ := clamp size item.minimumSize item.maximumSize

def InLimits : Prop :=
  item.minimumSize ≤ item.size ∧ item.size ≤ item.maximumSize

/-- `maximumSize - minimumSize > 0`. -/
def flexible : Bool := decide (↑item.minimumSize < item.maximumSize)

end ViewItem

def pushToStart (arr : List ℕ) (value : ℕ) : List ℕ :=
  if value ∈ arr then value :: arr.erase value else arr

def pushToEnd (arr : List ℕ) (value : ℕ) : List ℕ :=
  if value ∈ arr then arr.erase value ++ [value] else arr

def prioritized (indexes low high : List ℕ) : List ℕ :=
  low.foldl pushToEnd (high.foldl pushToStart indexes)

/-- `range(index, -1)`. -/
def upFrom (index : ℕ) : List ℕ := (List.range (index + 1)).reverse

/-- `range(index, length)`, for an index that is not greater. -/
def downFrom (index length : ℕ) : List ℕ := List.range' index (length - index)

variable (items : List ViewItem)

def withPriority (priority : LayoutPriority) (indexes : List ℕ) : List ℕ :=
  indexes.filter fun i => items[i]?.any (·.view.priority = priority)

def contentSizeOf : ℚ := (items.map (·.size)).sum

/-- The items at the indexes, each with its size in `sizes`. -/
def sized (sizes : List ℚ) (indexes : List ℕ) : List (ViewItem × ℚ) :=
  indexes.filterMap fun i =>
    match items[i]?, sizes[i]? with
    | some item, some size => some (item, size)
    | _, _ => none

/-- `size - max`. -/
def minus (size : ℚ) : WithTop ℚ → WithBot ℚ
  | ⊤ => ⊥
  | (max : ℚ) => ↑(size - max)

/-- `max - size`. -/
def above (max : WithTop ℚ) (size : ℚ) : WithTop ℚ := max.map (· - size)

def minDeltaUp (up : List (ViewItem × ℚ)) : ℚ := (up.map fun e => e.1.minimumSize - e.2).sum

def maxDeltaDown (down : List (ViewItem × ℚ)) : ℚ := (down.map fun e => e.2 - e.1.minimumSize).sum

/-- Both loops of `resize`: the items get what is left of the delta, in order. -/
def grow (sizes : List ℚ) : List ℕ → ℚ → List ViewItem → List ViewItem
  | [], _, items => items
  | i :: indexes, delta, items =>
    match items[i]?, sizes[i]? with
    | some item, some start =>
      let size := item.clampSize (start + delta)
      grow sizes indexes (delta - (size - start)) (items.set i { item with size })
    | _, _ => grow sizes indexes delta items

/-- `resize` where nothing snaps. -/
def resize (index : ℤ) (delta : ℚ) (sizes : List ℚ) (low high : List ℕ)
    (overloadMinDelta : WithBot ℚ) (overloadMaxDelta : WithTop ℚ) : List ViewItem × ℚ :=
  if index < 0 ∨ items.length ≤ index then (items, 0)
  else
    let upIndexes := prioritized (upFrom index.toNat) low high
    let downIndexes := prioritized (downFrom (index.toNat + 1) items.length) low high
    let up := sized items sizes upIndexes
    let down := sized items sizes downIndexes
    let maxDeltaUp := (up.map fun e => above e.1.maximumSize e.2).sum
    let maxDeltaDown := if down = [] then ⊤ else ↑(maxDeltaDown down)
    let minDeltaDown := if down = [] then ⊥ else (down.map fun e => minus e.2 e.1.maximumSize).sum
    let minDelta := max (max ↑(minDeltaUp up) minDeltaDown) overloadMinDelta
    let maxDelta := min (min maxDeltaDown maxDeltaUp) overloadMaxDelta
    let delta := clamp delta minDelta maxDelta
    (grow sizes downIndexes (-delta) (grow sizes upIndexes delta items), delta)

/-- The loop of `distributeEmptySpace`, which ends when nothing is left. -/
def fill : List ℕ → ℚ → List ViewItem → List ViewItem
  | [], _, items => items
  | i :: indexes, emptyDelta, items =>
    if emptyDelta = 0 then items
    else
      match items[i]? with
      | some item =>
        let size := item.clampSize (item.size + emptyDelta)
        fill indexes (emptyDelta - (size - item.size)) (items.set i { item with size })
      | none => fill indexes emptyDelta items

def emptySpaceOrder (lowPriorityIndex : Option ℕ) : List ℕ :=
  let indexes := (List.range items.length).reverse
  prioritized indexes (withPriority items .Low indexes ++ lowPriorityIndex.toList)
    (withPriority items .High indexes)

end CodeOss.Ui

/-! `SplitView`: its views lie side by side with a sash between each two, and share its size. -/

namespace CodeOss.Ui

inductive Sizing where
  | fixed (size : ℚ)
  | distribute
  | split (index : ℤ)
  | auto (index : ℤ)
  | invisible (cachedVisibleSize : ℚ)

structure SashDragSnapState where
  index : ℕ
  limitDelta : ℚ
  size : ℚ

structure SashDragState where
  index : ℕ
  start : ℚ
  current : ℚ
  sizes : List ℚ
  minDelta : WithBot ℚ
  maxDelta : WithTop ℚ
  alt : Bool
  snapBefore : Option SashDragSnapState
  snapAfter : Option SashDragSnapState

structure SplitView where
  size : ℚ
  contentSize : ℚ
  proportions : Option (List (Option ℚ))
  viewItems : List ViewItem
  sashDragState : Option SashDragState
  inverseAltBehavior : Bool
  proportionalLayout : Bool

structure ViewDescriptor where
  view : View
  size : ℚ
  visible : Bool

namespace SplitView

variable (s : SplitView)

/-- There is a sash between each two views. -/
def sashCount : ℕ := s.viewItems.length - 1

def sizes : List ℚ := s.viewItems.map (·.size)

def lowPriorityIndexes (indexes : List ℕ) : List ℕ :=
  withPriority s.viewItems .Low indexes

def highPriorityIndexes (indexes : List ℕ) : List ℕ :=
  withPriority s.viewItems .High indexes

variable (index : ℤ)

/-- `this.viewItems[index]`, also for an index that no view has. -/
def item? : Option ViewItem :=
  if index < 0 then none else s.viewItems[index.toNat]?

def saveProportions : SplitView :=
  if s.proportionalLayout ∧ 0 < s.contentSize then
    { s with
      proportions := some (s.viewItems.map fun v =>
        if v.view.proportionalLayout ∧ v.visible then some (v.size / s.contentSize) else none) }
  else s

def distributeEmptySpace (lowPriorityIndex : Option ℕ) : SplitView :=
  { s with
    viewItems := fill (emptySpaceOrder s.viewItems lowPriorityIndex)
      (s.size - contentSizeOf s.viewItems) s.viewItems }

def layoutViews : SplitView :=
  { s with contentSize := contentSizeOf s.viewItems }

def resizeAll (delta : ℚ) (low high : List ℕ) : SplitView :=
  { s with viewItems :=
      (resize s.viewItems (s.viewItems.length - 1) delta s.sizes low high ⊥ ⊤).1 }

def relayout (low high : List ℕ) : SplitView :=
  let s := s.resizeAll (s.size - contentSizeOf s.viewItems) low high
  (s.distributeEmptySpace none).layoutViews.saveProportions

variable (items : List ViewItem)

/-- The views, each with its proportion if it has one. -/
def withProportions (proportions : List (Option ℚ)) : List (ViewItem × Option ℚ) :=
  items.zip (proportions ++ List.replicate (items.length - proportions.length) none)

def sizeWithoutProportions (entries : List (ViewItem × Option ℚ)) : ℚ :=
  contentSizeOf ((entries.filter fun e => e.2.isNone).map Prod.fst)

def proportioned (rest total : ℚ) (entry : ViewItem × Option ℚ) : ViewItem :=
  match entry.2 with
  | none => entry.1
  | some proportion =>
    if 0 < total then
      { entry.1 with size := entry.1.clampSize ⌊proportion * rest / total + 1 / 2⌋ }
    else entry.1

def layout (size : ℚ) : SplitView :=
  let previousSize := max s.size s.contentSize
  let s := { s with size }
  let indexes := List.range s.viewItems.length
  let s :=
    match s.proportions with
    | none =>
      s.resizeAll (size - previousSize) (s.lowPriorityIndexes indexes)
        (s.highPriorityIndexes indexes)
    | some proportions =>
      let entries := withProportions s.viewItems proportions
      let total := (entries.filterMap Prod.snd).sum
      let rest := size - sizeWithoutProportions entries
      { s with viewItems := entries.map (proportioned rest total) }
  (s.distributeEmptySpace none).layoutViews

def distributeViewSizes : SplitView :=
  let flexibleViewItems := s.viewItems.filter (·.flexible)
  let size : ℚ := ⌊contentSizeOf flexibleViewItems / flexibleViewItems.length⌋
  let viewItems := s.viewItems.map fun item =>
    if item.flexible then { item with size := item.clampSize size } else item
  let s := { s with viewItems }
  let indexes := List.range s.viewItems.length
  s.relayout (s.lowPriorityIndexes indexes) (s.highPriorityIndexes indexes)

def resizeView (size : ℚ) : SplitView :=
  match s.item? index with
  | none => s
  | some item =>
    let i := index.toNat
    let indexes := (List.range s.viewItems.length).filter (· ≠ i)
    let low := s.lowPriorityIndexes indexes ++ [i]
    let high := s.highPriorityIndexes indexes
    let size := clamp (⌊size + 1 / 2⌋ : ℚ) item.minimumSize (min item.maximumSize s.size)
    let s := { s with viewItems := s.viewItems.set i { item with size } }
    s.relayout low high

/-- The sizes lie within `2` of each other. -/
def areViewsDistributed : Bool :=
  s.sizes.all fun a => s.sizes.all fun b => a - b ≤ 2

def resolveAuto : Sizing → Sizing
  | .auto index => if s.areViewsDistributed then .distribute else .split index
  | sizing => sizing

def getViewSize : ℚ :=
  match s.item? index with
  | none => -1
  | some item => item.size

def newViewItem (view : View) : Sizing → ViewItem
  | .fixed size => ⟨view, size, none⟩
  | .split index => ⟨view, s.getViewSize index / 2, none⟩
  | .invisible cachedVisibleSize => ⟨view, 0, some cachedVisibleSize⟩
  | .distribute | .auto _ => ⟨view, view.minimumSize, none⟩

/-- Where `splice` inserts. -/
def spliceStart : ℕ :=
  if index < 0 then (s.viewItems.length + index).toNat else min index.toNat s.viewItems.length

def addView (view : View) (sizing : Sizing) (index : ℤ) : SplitView :=
  let sizing := s.resolveAuto sizing
  let item := s.newViewItem view sizing
  let high :=
    match sizing with
    | .split index => index.toNat?.toList
    | _ => []
  let s := { s with viewItems := s.viewItems.insertIdx (s.spliceStart index) item }
  let s := s.relayout index.toNat?.toList high
  match sizing with
  | .distribute => s.distributeViewSizes
  | _ => s

/-- The view that is removed, or `none` where the code throws. -/
def removeView (sizing : Option Sizing) : Option (View × SplitView) :=
  match s.item? index with
  | none => none
  | some viewItemToRemove =>
    let sizing := sizing.map s.resolveAuto
    let viewItems :=
      match sizing with
      | some (.split reference) =>
        if reference < 0 then s.viewItems
        else s.viewItems.modify reference.toNat fun item =>
          { item with size := item.size + viewItemToRemove.size }
      | _ => s.viewItems
    let s := { s with viewItems := viewItems.eraseIdx index.toNat }
    let s := s.relayout [] []
    let s :=
      match sizing with
      | some .distribute => s.distributeViewSizes
      | _ => s
    some (viewItemToRemove.view, s)

def moveView (source target : ℤ) : SplitView :=
  match s.item? source with
  | none => s
  | some item =>
    let sizing :=
      match item.cachedVisibleSize with
      | none => .fixed item.size
      | some cachedVisibleSize => .invisible cachedVisibleSize
    match s.removeView source none with
    | none => s
    | some (view, s) => s.addView view sizing target

/-- The second removal may throw, and the first one stays. -/
def swapViews (source target : ℤ) : SplitView :=
  let low := min source target
  let high := max source target
  let lowSize := s.getViewSize low
  let highSize := s.getViewSize high
  match s.removeView high none with
  | none => s
  | some (highView, s) =>
    match s.removeView low none with
    | none => s
    | some (lowView, s) =>
      (s.addView highView (.fixed lowSize) low).addView lowView (.fixed highSize) high

def setViewVisible (visible : Bool) : SplitView :=
  match s.item? index with
  | none => s
  | some item =>
    let viewItems := s.viewItems.set index.toNat (item.setVisible visible none)
    let s := { s with viewItems }
    (s.distributeEmptySpace index.toNat).layoutViews.saveProportions

/-- The view of an item has changed, and may prefer a size. -/
def onViewChange (index : ℕ) (view : View) (size : Option ℚ) : SplitView :=
  match s.viewItems[index]? with
  | none => s
  | some item =>
    let item := { item with view }
    let s := { s with viewItems := s.viewItems.set index item }
    let preferred : ℚ := item.clampSize (size.getD item.size)
    if s.inverseAltBehavior ∧ 0 < index then
      let delta : ℚ := ⌊(item.size - preferred) / 2⌋
      let s :=
        { s with viewItems := (resize s.viewItems (index - 1) delta s.sizes [] [] ⊥ ⊤).1 }
      (s.distributeEmptySpace none).layoutViews
    else
      let s := { s with viewItems := s.viewItems.set index { item with size := preferred } }
      s.relayout [index] []

def snapIndexAmongHidden (items : List ViewItem) : List ℕ → Option ℕ
  | [] => none
  | i :: indexes =>
    match items[i]? with
    | none => none
    | some item =>
      if item.visible ∧ item.flexible then none
      else if ¬ item.visible ∧ item.view.snap then some i
      else snapIndexAmongHidden items indexes

/-- Visible views first, then hidden ones. -/
def findFirstSnapIndex (indexes : List ℕ) : Option ℕ :=
  (indexes.find? fun i => items[i]?.any fun item => item.visible && item.view.snap).or
    (snapIndexAmongHidden items indexes)

/-- The view that is resized on both sides with alt: the one behind the sash, but for the last
sash the one before it. -/
def altIndex (index : ℕ) : ℕ :=
  if index + 1 = s.sashCount then index else index + 1

/-- The state of a drag, or `none` where the code throws because the view is gone. -/
def resetSashDragState (index : ℕ) (start : ℚ) (alt : Bool) : Option SashDragState :=
  let alt := if s.inverseAltBehavior then !alt else alt
  if alt then
    match s.viewItems[s.altIndex index]? with
    | none => none
    | some viewItem =>
      if index + 1 = s.sashCount then
        some ⟨index, start, start, s.sizes, ↑((viewItem.minimumSize - viewItem.size) / 2),
          (above viewItem.maximumSize viewItem.size).map (· / 2), alt, none, none⟩
      else
        some ⟨index, start, start, s.sizes,
          (minus viewItem.size viewItem.maximumSize).map (· / 2),
          ↑((viewItem.size - viewItem.minimumSize) / 2), alt, none, none⟩
  else if s.viewItems.length ≤ index then none
  else
    let upIndexes := upFrom index
    let downIndexes := downFrom (index + 1) s.viewItems.length
    let up := sized s.viewItems s.sizes upIndexes
    let down := sized s.viewItems s.sizes downIndexes
    let maxDeltaUp := (up.map fun e => above e.1.view.maximumSize e.2).sum
    let minDeltaDown :=
      if down = [] then ⊥ else (down.map fun e => minus e.2 e.1.view.maximumSize).sum
    let minDelta := atLeast (minDeltaUp up) minDeltaDown
    let maxDelta := atMost (maxDeltaDown down) maxDeltaUp
    let snapBefore := (findFirstSnapIndex s.viewItems upIndexes).bind fun i =>
      s.viewItems[i]?.map fun viewItem =>
        let halfSize : ℚ := ⌊viewItem.view.minimumSize / 2⌋
        ⟨i, if viewItem.visible then minDelta - halfSize else minDelta + halfSize, viewItem.size⟩
    let snapAfter := (findFirstSnapIndex s.viewItems downIndexes).bind fun i =>
      s.viewItems[i]?.map fun viewItem =>
        let halfSize : ℚ := ⌊viewItem.view.minimumSize / 2⌋
        ⟨i, if viewItem.visible then maxDelta + halfSize else maxDelta - halfSize, viewItem.size⟩
    some ⟨index, start, start, s.sizes, ⊥, ⊤, alt, snapBefore, snapAfter⟩

def onSashStart (index : ℕ) (start : ℚ) (alt : Bool) : SplitView :=
  if index < s.sashCount then
    match s.resetSashDragState index start alt with
    | none => s
    | some state => { s with sashDragState := some state }
  else s

def onSashKey (alt : Bool) : SplitView :=
  match s.sashDragState with
  | none => s
  | some state =>
    match s.resetSashDragState state.index state.current alt with
    | none => s
    | some state => { s with sashDragState := some state }

/-- A view snaps: `none` where the code throws because it is gone. -/
def snapTo (state : SashDragSnapState) (visible : Bool) : Option (List ViewItem × Bool) :=
  items[state.index]?.map fun snapView =>
    (items.set state.index (snapView.setVisible visible state.size), visible ≠ snapView.visible)

def snapAfterTo (delta : ℚ) :
    Option SashDragSnapState → Option (List ViewItem)
  | none => some items
  | some state => (snapTo items state (delta < state.limitDelta)).map Prod.fst

/-- What `resize` does first. -/
def snap (delta : ℚ) (snapBefore snapAfter : Option SashDragSnapState) : Option (List ViewItem) :=
  match snapBefore with
  | none => snapAfterTo items delta snapAfter
  | some state =>
    match snapTo items state (state.limitDelta ≤ delta) with
    | none => none
    | some (items, snapped) =>
      if snapped then some items else snapAfterTo items delta snapAfter

/-- With alt the other side makes up for the delta. -/
def resizeAlt (index : ℕ) (newDelta : ℚ) (viewItem : ViewItem) : SplitView :=
  let resizeIndex : ℤ := if index + 1 = s.sashCount then index - 1 else index + 1
  let newMinDelta := minus viewItem.size viewItem.maximumSize
  let newMaxDelta := viewItem.size - viewItem.minimumSize
  { s with
    viewItems :=
      (resize s.viewItems resizeIndex (-newDelta) s.sizes [] [] newMinDelta newMaxDelta).1 }

/-- What follows the first `resize`. Where the code throws, as a view is gone, what has been done
until then stays. -/
def finishChange (d : SashDragState) (newDelta : ℚ) : SplitView :=
  if d.alt then
    match s.viewItems[s.altIndex d.index]? with
    | none => s
    | some viewItem =>
      ((s.resizeAlt d.index newDelta viewItem).distributeEmptySpace none).layoutViews
  else (s.distributeEmptySpace none).layoutViews

/-- `none` where sizes become `NaN`, as the drag state has none for a view. -/
def onSashChange (current : ℚ) : Option SplitView :=
  match s.sashDragState with
  | none => some s
  | some d =>
    let s := { s with sashDragState := some { d with current } }
    let delta := current - d.start
    match if d.index < s.viewItems.length then snap s.viewItems delta d.snapBefore d.snapAfter
      else some s.viewItems with
    | none => some s
    | some items =>
      if d.index < items.length ∧ d.sizes.length < items.length then none
      else
        let r := resize items d.index delta d.sizes [] [] d.minDelta d.maxDelta
        some ({ s with viewItems := r.1 }.finishChange d r.2)

def onSashEnd : SplitView := s.saveProportions

structure Options where
  inverseAltBehavior : Bool
  proportionalLayout : Bool
  descriptor : Option (ℚ × List ViewDescriptor)

def initialItem (d : ViewDescriptor) : ViewItem :=
  if d.visible then ⟨d.view, d.size, none⟩ else ⟨d.view, 0, some d.size⟩

def initial (options : Options) : SplitView :=
  let s : SplitView := ⟨0, 0, none, [], none, options.inverseAltBehavior,
    options.proportionalLayout⟩
  match options.descriptor with
  | none => s
  | some (size, views) =>
    let viewItems := views.map initialItem
    saveProportions { s with size, viewItems, contentSize := contentSizeOf viewItems }

end SplitView

inductive Action where
  | layout (size : ℚ)
  | addView (view : View) (sizing : Sizing) (index : ℤ)
  | removeView (index : ℤ) (sizing : Option Sizing)
  | moveView (source target : ℤ)
  | swapViews (source target : ℤ)
  | setViewVisible (index : ℤ) (visible : Bool)
  | resizeView (index : ℤ) (size : ℚ)
  | distributeViewSizes
  | viewChange (index : ℕ) (view : View) (size : Option ℚ)
  | sashStart (index : ℕ) (start : ℚ) (alt : Bool)
  | sashKey (alt : Bool)
  | sashChange (current : ℚ)
  | sashEnd

namespace SplitView

variable (s : SplitView)

/-- The next state, or `none` where sizes become `NaN`. -/
def step : Action → Option SplitView
  | .layout size => some (s.layout size)
  | .addView view sizing index => some (s.addView view sizing index)
  | .removeView index sizing => some (((s.removeView index sizing).map Prod.snd).getD s)
  | .moveView source target => some (s.moveView source target)
  | .swapViews source target => some (s.swapViews source target)
  | .setViewVisible index visible => some (s.setViewVisible index visible)
  | .resizeView index size => some (s.resizeView index size)
  | .distributeViewSizes => some s.distributeViewSizes
  | .viewChange index view size => some (s.onViewChange index view size)
  | .sashStart index start alt => some (s.onSashStart index start alt)
  | .sashKey alt => some (s.onSashKey alt)
  | .sashChange current => s.onSashChange current
  | .sashEnd => some s.onSashEnd

def run (s : SplitView) : List Action → Option SplitView
  | [] => some s
  | a :: as => (s.step a).bind fun s => run s as

def InLimits : Prop := ∀ item ∈ s.viewItems, item.InLimits

/-- The views are as they should be after an operation. -/
structure LaidOut (s : SplitView) : Prop where
  visible : ∀ item ∈ s.viewItems, item.visible = true →
    item.view.minimumSize ≤ item.size ∧ item.size ≤ item.view.maximumSize
  hidden : ∀ item ∈ s.viewItems, item.visible = false → item.size = 0
  total : s.viewItems ≠ [] → contentSizeOf s.viewItems =
    clamp s.size ((s.viewItems.map (·.minimumSize)).sum : ℚ) (s.viewItems.map (·.maximumSize)).sum
  content : s.contentSize = contentSizeOf s.viewItems

/-- The views whose size `layout` does not clamp. -/
def leftByLayout : List ViewItem :=
  match s.proportions with
  | none => []
  | some proportions =>
    let entries := withProportions s.viewItems proportions
    let total := (entries.filterMap Prod.snd).sum
    (entries.filter fun e => e.2.isNone || total ≤ 0).map Prod.fst

/-- The views that `setViewVisible` neither shows nor hides. -/
def leftBySetViewVisible (index : ℤ) (visible : Bool) : List ViewItem :=
  if (s.item? index).any (·.visible = visible) then s.viewItems
  else s.viewItems.eraseIdx index.toNat

/-- The first operation lays the views out, and those it leaves as they are lie within their
limits. An operation that does nothing finds the views laid out. -/
def Begins : Action → Prop
  | .layout _ => ∀ item ∈ s.leftByLayout, item.InLimits
  | .addView _ _ _ | .distributeViewSizes => True
  | .removeView index _ | .moveView index _ | .resizeView index _ =>
    s.item? index = none → s.LaidOut
  | .swapViews source target => s.item? (max source target) = none → s.LaidOut
  | .viewChange index _ _ => s.viewItems[index]? = none → s.LaidOut
  | .setViewVisible index visible =>
    (s.item? index = none → s.LaidOut) ∧
    ∀ item ∈ s.leftBySetViewVisible index visible, item.InLimits
  | .sashStart _ _ _ | .sashKey _ | .sashChange _ | .sashEnd => s.LaidOut

/-- When a sash moves, all views have a size in the drag state, and with alt the view that is
resized on both sides is still there. -/
def dragsOn : Action → Bool
  | .sashChange _ =>
    match s.sashDragState with
    | none => true
    | some d => d.index < s.viewItems.length → s.viewItems.length ≤ d.sizes.length ∧
        (d.alt = true → s.altIndex d.index < s.viewItems.length)
  | _ => true

def allDragsOn (s : SplitView) : List Action → Bool
  | [] => true
  | a :: as =>
    s.dragsOn a &&
      match s.step a with
      | none => true
      | some s' => s'.allDragsOn as

end SplitView

end CodeOss.Ui
