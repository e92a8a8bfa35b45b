import ZkChat.App.ChatMessages
import ZkChat.App.ChatReducer
import ZkChat.App.Passport
import ZkChat.App.RlnPcd
import ZkChat.App.SlashedGroup
import ZkChat.Client.DeletedHistory
import ZkChat.Client.DirectRoom
import ZkChat.Client.Encryption
import ZkChat.Client.KeyAgreement
import ZkChat.Client.KeyAuthenticity
import ZkChat.Client.KeyDeletion
import ZkChat.Client.LiveHistory
import ZkChat.Client.LiveProfile
import ZkChat.Client.LocalPaging
import ZkChat.Client.MessagePath
import ZkChat.Client.PrivateInvite
import ZkChat.Client.ProfileExport
import ZkChat.Client.ProfileValidation
import ZkChat.Client.PublicRooms
import ZkChat.Client.Registration
import ZkChat.Client.RoomSecrecy
import ZkChat.Client.RootSync
import ZkChat.Client.Routing
import ZkChat.Client.SocketClient
import ZkChat.Client.SyncExact
import ZkChat.Client.TrustedContacts
import ZkChat.Client.Wire
import ZkChat.Server.AllOrNothing
import ZkChat.Server.Anonymity
import ZkChat.Server.AppendList
import ZkChat.Server.Bundles
import ZkChat.Server.Burst
import ZkChat.Server.Cleanup
import ZkChat.Server.Concurrency
import ZkChat.Server.ConcurrentTree
import ZkChat.Server.Config
import ZkChat.Server.Delivery
import ZkChat.Server.EpochTolerance
import ZkChat.Server.MerklePath
import ZkChat.Server.NodeSync
import ZkChat.Server.Removal
import ZkChat.Server.RemovedMembers
import ZkChat.Server.SecretRecovery
import ZkChat.Server.Seeding
import ZkChat.Server.Semaphore
import ZkChat.Server.SpamCounters
import ZkChat.Server.TreeEvents
import ZkChat.Server.TreeShape
