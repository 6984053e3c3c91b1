import ArtemisNative.Ring
import ArtemisNative.Destroy
import ArtemisNative.Lifetime
import ArtemisNative.Undo
import ArtemisNative.Duplicates
import ArtemisNative.Durable
import ArtemisNative.Registry
import ArtemisNative.Sentinel
import ArtemisNative.Files
import ArtemisNative.FastPath
import ArtemisNative.References
import ArtemisNative.PollInto
import ArtemisNative.Reentrant
import ArtemisNative.Detector
import ArtemisNative.CallbackCache
import ArtemisNative.NewContext
import ArtemisNative.Fill
import ArtemisNative.LocalRefs
import ArtemisNative.EventsBuffer
import ArtemisNative.Syncs
import ArtemisNative.Throwing
import ArtemisNative.Reaping
import ArtemisNative.Contexts
import ArtemisNative.Locks
import ArtemisNative.Fills
import ArtemisNative.Resources
import ArtemisNative.Buffers
import ArtemisNative.Closing
import ArtemisNative.Memory
import ArtemisNative.Readers
import ArtemisNative.Loading
