import Klog.Lib.RingWindow
import Klog.Lib.BubbleSort
import Klog.Lib.Digits
import Klog.Lib.BoundedWrite
import Klog.Model.Entry
import Klog.Model.Format
import Klog.Model.Printf
import Klog.Model.Snapshot
import Klog.Model.Device
import Klog.History
import Klog.Counters
import Klog.Snapshot.Passes
import Klog.Snapshot.Reachable
import Klog.Snapshot.Concurrent
import Klog.Snapshot.Newest
import Klog.Snapshot.Provenance
import Klog.Device.Stream
import Klog.Device.Syscall
import Klog.Device.Readers
import Klog.Format.Bounds
import Klog.Format.Render
import Klog.Format.Helpers
import Klog.Format.Callers
